import Mcube.Spinlock.Exclusion

/-!
# Interrupts and the saved flag

`spin_lock` and `spin_trylock` clear the interrupt flag before touching the
lock word, and `spin_unlock` restores the flag that was saved in
`lock->rflags` by the call that acquired the lock. With interrupt handlers
that start only while the flag is set, run with it clear and return holding
no lock, and with every context releasing its locks in the reverse order it
acquired them (`lifo`), every run has:

* a CPU holding a lock has its interrupt flag clear, so no handler starts
  while it holds one, and the contexts a handler interrupted hold nothing: a
  handler never spins on a lock of the context under it;
* the step of `spin_unlock` that restores the flag sets it to the flag saved
  by the call that acquired the lock, although `lock->rflags` may already
  have been overwritten by the next holder;
* a `spin_trylock` that fails returns with the flag it was called with, and
  its test-and-set does not change the lock.

The invariant behind all three (`IrqOk`) says, of the running context, what
the flag is at each program point, that only the oldest of its held locks may
have been acquired with interrupts on (`Nested`), and that the `rflags` of
each lock it holds is the flag its acquiring call saved, once that call has
stored it (`RflagsKept`). Only the holder of a lock writes its `rflags`
(`stepCpu_rflags`), which mutual exclusion makes a frame rule for every other
CPU.
-/

namespace Mcube

namespace Spinlock

open Function

/-- **Only the oldest held lock may have been acquired with interrupts on.** -/
def Nested : List (ℕ × Bool) → Prop
  | [] => True
  | e :: rest => (rest ≠ [] → e.2 = false) ∧ Nested rest

/-- What a context knows of its CPU's interrupt flag `irq` at its program
point, and of the flag it saved. -/
def PcIrq (irq : Bool) (x : Ctx) : Prop :=
  match x.pc with
  | .idle => True
  | .lockTas _ r | .lockRestore _ r | .tryTas _ r | .tryRestore _ r =>
    irq = false ∧ (x.held ≠ [] → r = false)
  | .lockSpin _ r | .lockDisable _ r => irq = r ∧ (x.held ≠ [] → r = false)
  | .lockStore l r | .tryStore l r | .unlockStore l r => irq = false ∧ x.held.head? = some (l, r)
  | .tryRet l b r =>
    if b then irq = false ∧ x.held.head? = some (l, r) else irq = r ∧ (x.held ≠ [] → r = false)
  | .unlockRestore r g => irq = false ∧ r = g ∧ (x.held ≠ [] → g = false)

/-- The context is about to store `lock->rflags` of lock `l`. -/
def StorePending : Pc → ℕ → Prop
  | .lockStore l _, l' | .tryStore l _, l' => l = l'
  | _, _ => False

/-- **The `rflags` of each held lock is the flag its acquiring call saved**,
once that call has stored it. -/
def RflagsKept (locks : ℕ → LockSpin) (x : Ctx) : Prop :=
  ∀ l g, (l, g) ∈ x.held → (locks l).rflags = g ∨ StorePending x.pc l

/-- The invariant of a running context under the interrupt flag `irq`. -/
structure CtxIrq (locks : ℕ → LockSpin) (irq : Bool) (x : Ctx) : Prop where
  pc : PcIrq irq x
  off : irq = true → x.held = []
  nested : Nested x.held
  rflags : RflagsKept locks x

/-- The invariant of a CPU: its running context's, and the contexts its
handlers interrupted hold nothing and were interrupted with the flag set. -/
structure IrqOk (locks : ℕ → LockSpin) (cpu : Cpu) : Prop where
  running : CtxIrq locks cpu.irq cpu.ctx
  saved : ∀ p ∈ cpu.saved, p.1.held = [] ∧ p.2 = true ∧ PcIrq true p.1

variable {locks locks' : ℕ → LockSpin} {irq irq' : Bool} {x x' : Ctx} {cpu cpu' : Cpu}
  {a : Act} {l : ℕ} {g r : Bool} {held rest : List (ℕ × Bool)}

/-- With no lock held twice, the head is the only entry of its lock. -/
theorem eq_of_mem_of_head (hnd : (keys held).Nodup) (hh : held.head? = some (l, r))
    (hm : (l, g) ∈ held) : g = r := by
  have he := List.eq_cons_of_mem_head? hh
  rw [he] at hm hnd
  rcases List.mem_cons.1 hm with h | h
  · exact (Prod.mk.inj h).2
  · exact absurd (List.mem_map_of_mem Prod.fst h) (List.nodup_cons.1 hnd).1

/-- **The store of `lock->rflags`** by a context whose newest held lock is
`l`, acquired with flag `r`: the record is complete afterwards. -/
theorem rflagsKept_store (hnd : (keys held).Nodup) (hh : held.head? = some (l, r))
    (hk : RflagsKept locks ⟨pc, held⟩) (hpc : ∀ l', StorePending pc l' → l' = l) :
    RflagsKept (update locks l { locks l with rflags := r }) ⟨pc', held⟩ := by
  intro l' g hm
  left
  by_cases e : l' = l
  · subst e
    simp [eq_of_mem_of_head hnd hh hm]
  · rw [update_noteq e]
    exact (hk l' g hm).resolve_right fun hs => e (hpc l' hs)

/-- What `spin_unlock` does to the held locks when it releases the newest. -/
theorem unlock_head (hnd : (keys ((l, r) :: rest)).Nodup) :
    ((l, r) :: rest).filter (fun e => e.1 != l) = rest ∧ ((l, r) :: rest).lookup l = some r := by
  have hl : l ∉ keys rest := (List.nodup_cons.1 hnd).1
  refine ⟨?_, List.lookup_cons_self⟩
  rw [List.filter_cons_of_neg (by simp), List.filter_eq_self]
  intro e he
  have : e.1 ≠ l := fun h => hl (h ▸ List.mem_map_of_mem Prod.fst he)
  simpa using this

theorem off_of_saved (h : held ≠ [] → r = false) : r = true → held = [] := fun hr => by
  by_contra hne
  simp [h hne] at hr

/-- **One step of a running context keeps its invariant**, given what it
knows of its lock and no lock held twice. -/
theorem runCtx_irq (h : runCtx locks irq x = some (locks', irq', x')) (hx : CtxIrq locks irq x)
    (hnd : (keys x.held).Nodup) : CtxIrq locks' irq' x' := by
  obtain ⟨hpc, hoff, hnest, hk⟩ := hx
  obtain ⟨pc, held⟩ := x
  -- a step that keeps the held locks and their `rflags`, from a point storing none
  have hkeep : (∀ l', ¬StorePending pc l') → (∀ l, (locks' l).rflags = (locks l).rflags) →
      ∀ pc', RflagsKept locks' ⟨pc', held⟩ := fun hns hv _ l g hm =>
    Or.inl ((hv l).trans ((hk l g hm).resolve_right (hns l)))
  cases pc <;> simp only [runCtx, atomicBitTestAndSet] at h
  case idle => cases h
  case lockTas l r | tryTas l r =>
    split at h <;> cases h
    · exact ⟨hpc, hoff, hnest, hkeep (fun _ => id) (fun _ => by simp) _⟩
    · refine ⟨⟨hpc.1, rfl⟩, by simp [hpc.1], ⟨hpc.2, hnest⟩, fun l' g hm => ?_⟩
      rcases List.mem_cons.1 hm with e | hm
      · obtain ⟨rfl, rfl⟩ := Prod.mk.inj e
        exact Or.inr rfl
      · exact Or.inl (by simpa using (hk l' g hm).resolve_right id)
  case lockRestore l r =>
    cases h
    exact ⟨⟨rfl, hpc.2⟩, off_of_saved hpc.2, hnest, hkeep (fun _ => id) (fun _ => rfl) _⟩
  case lockSpin l r =>
    split at h <;> cases h
    exacts [⟨hpc, hoff, hnest, hk⟩, ⟨hpc, hoff, hnest, hkeep (fun _ => id) (fun _ => rfl) _⟩]
  case lockDisable l r =>
    cases h
    exact ⟨⟨rfl, hpc.2⟩, by simp, hnest, hkeep (fun _ => id) (fun _ => rfl) _⟩
  case lockStore l r | tryStore l r =>
    cases h
    exact ⟨by simp [PcIrq, hpc.1, hpc.2], by simp [hpc.1], hnest,
      rflagsKept_store hnd hpc.2 hk fun _ h => h.symm⟩
  case tryRestore l r =>
    cases h
    exact ⟨by simpa [PcIrq] using hpc.2, off_of_saved hpc.2, hnest,
      hkeep (fun _ => id) (fun _ => rfl) _⟩
  case tryRet l b r =>
    cases h
    refine ⟨trivial, ?_, hnest, hkeep (fun _ => id) (fun _ => rfl) _⟩
    cases b
    · simp only [PcIrq] at hpc
      exact fun hi => off_of_saved hpc.2 (hpc.1 ▸ hi)
    · simp [PcIrq] at hpc
      simp [hpc.1]
  case unlockStore l r =>
    cases h
    obtain ⟨hirq, hh⟩ := hpc
    obtain ⟨rest, rfl⟩ : ∃ rest, held = (l, r) :: rest := ⟨_, List.eq_cons_of_mem_head? hh⟩
    obtain ⟨hf, hl⟩ := unlock_head hnd
    simp only [hf, hl, Option.getD_some]
    refine ⟨⟨hirq, rfl, hnest.1⟩, by simp [hirq], hnest.2, fun l' g hm => Or.inl ?_⟩
    simpa using (hk l' g (List.mem_cons_of_mem _ hm)).resolve_right id
  case unlockRestore r g =>
    cases h
    obtain ⟨-, rfl, hg⟩ := hpc
    exact ⟨trivial, off_of_saved hg, hnest, hkeep (fun _ => id) (fun _ => rfl) _⟩

/-! ## One CPU -/

/-- **Only the holder writes `lock->rflags`**, from its running context. -/
theorem stepCpu_rflags (h : stepCpu locks lifo cpu a = some (locks', cpu')) (hh : CpuHolds cpu)
    (l : ℕ) (hl : (locks' l).rflags ≠ (locks l).rflags) : l ∈ keys cpu.ctx.held := by
  cases a <;> simp only [stepCpu] at h
  case run =>
    obtain ⟨⟨locks'', i, x'⟩, hr, he⟩ := Option.map_eq_some'.1 h
    simp only [Prod.mk.injEq] at he
    obtain ⟨rfl, -⟩ := he
    exact runCtx_rflags hr hh.running l hl
  all_goals
    repeat' split at h
    all_goals simp only [Option.some.injEq, Prod.mk.injEq, reduceCtorEq] at h
    exact absurd (by rw [h.1]) hl

theorem flag_of_off (hoff : irq = true → held = []) : held ≠ [] → irq = false := fun hne => by
  cases irq
  · rfl
  · exact absurd (hoff rfl) hne

/-- **One step of a CPU keeps its invariant**, when contexts release their
locks in the reverse order they acquired them. -/
theorem stepCpu_irq (h : stepCpu locks true cpu a = some (locks', cpu')) (hok : IrqOk locks cpu)
    (hh : CpuHolds cpu) : IrqOk locks' cpu' := by
  obtain ⟨⟨hpc, hoff, hnest, hk⟩, hsaved⟩ := hok
  obtain ⟨irq, ⟨pc, held⟩, saved⟩ := cpu
  cases a with
  | spinLock l | spinTrylock l =>
    simp only [stepCpu] at h
    split at h <;> rename_i hg <;> cases h
    obtain ⟨rfl, -⟩ := hg
    exact ⟨⟨⟨rfl, flag_of_off hoff⟩, by simp, hnest, hk⟩, hsaved⟩
  | spinUnlock l =>
    simp only [stepCpu] at h
    split at h <;> rename_i hg <;> cases h
    obtain ⟨rfl, hu⟩ := hg
    have hu' : held.head?.map Prod.fst = some l := of_decide_eq_true hu
    obtain ⟨⟨l', g⟩, hhd, hl'⟩ := Option.map_eq_some'.1 hu'
    simp only at hl'
    subst hl'
    have hne : held ≠ [] := by rintro rfl; simp at hhd
    have hg : (locks l').rflags = g := (hk l' g (List.mem_of_mem_head? hhd)).resolve_right id
    exact ⟨⟨⟨flag_of_off hoff hne, by rw [hhd, hg]⟩, hoff, hnest, hk⟩, hsaved⟩
  | run =>
    simp only [stepCpu, Option.map_eq_some'] at h
    obtain ⟨⟨locks'', irq', x'⟩, hr, he⟩ := h
    cases he
    have hnd := hh.nodup
    simp only [Cpu.allHeld, keys, List.map_append] at hnd
    exact ⟨runCtx_irq hr ⟨hpc, hoff, hnest, hk⟩ hnd.of_append_left, hsaved⟩
  | irq =>
    simp only [stepCpu] at h
    split at h <;> rename_i hg <;> cases h
    refine ⟨⟨trivial, by simp, trivial, fun _ _ hm => absurd hm (List.not_mem_nil _)⟩, ?_⟩
    intro p hp
    rcases List.mem_cons.1 hp with rfl | hp
    exacts [⟨hoff hg, hg, hg ▸ hpc⟩, hsaved p hp]
  | iret =>
    cases saved with
    | nil => simp [stepCpu] at h
    | cons p rest =>
      obtain ⟨x, f⟩ := p
      simp only [stepCpu] at h
      split at h <;> cases h
      obtain ⟨hx, rfl, hpx⟩ := hsaved _ (List.mem_cons_self _ _)
      exact ⟨⟨hpx, fun _ => hx, by rw [hx]; trivial, fun _ _ hm => absurd (hx ▸ hm) (List.not_mem_nil _)⟩,
        fun p hp => hsaved p (List.mem_cons_of_mem _ hp)⟩

/-! ## Every run -/

/-- **The invariant of the interrupt discipline**: mutual exclusion, and each
CPU's invariant. -/
structure IrqSafe (s : State) : Prop where
  excl : Exclusive s
  cpu : ∀ c, IrqOk s.locks (s.cpus c)

variable {s s' : State} {c : ℕ}

theorem holds_of_running (h : l ∈ keys cpu.ctx.held) : Holds cpu l := by
  simp only [Holds, Cpu.allHeld, keys, List.map_append]
  exact List.mem_append_left _ h

theorem irqSafe_init (locks₀ : ℕ → LockSpin) (irq₀ : ℕ → Bool) : IrqSafe (init locks₀ irq₀) :=
  ⟨exclusive_init _ _, fun _ => ⟨⟨trivial, fun _ => rfl, trivial, fun _ _ h => absurd h (List.not_mem_nil _)⟩,
    fun _ h => absurd h (List.not_mem_nil _)⟩⟩

/-- **Every step keeps the interrupt discipline**: the stepping CPU by
`stepCpu_irq`, every other one because the only lock words it writes are
those of locks it holds, which no other CPU holds. -/
theorem IrqSafe.step (hs : IrqSafe s) (h : step true s c a = some s') : IrqSafe s' := by
  refine ⟨hs.excl.step h, fun c' => ?_⟩
  simp only [Spinlock.step, Option.map_eq_some'] at h
  obtain ⟨⟨locks', cpu'⟩, hc, rfl⟩ := h
  by_cases e : c' = c
  · subst e
    simpa using stepCpu_irq hc (hs.cpu c') (hs.excl.cpu c')
  · simp only [update_noteq e]
    obtain ⟨⟨hpc, hoff, hnest, hk⟩, hsaved⟩ := hs.cpu c'
    refine ⟨⟨hpc, hoff, hnest, fun l g hm => ?_⟩, hsaved⟩
    by_cases hl : (locks' l).rflags = (s.locks l).rflags
    · rw [hl]
      exact hk l g hm
    · exact absurd (hs.excl.unique l c' c (holds_of_running (List.mem_map_of_mem Prod.fst hm))
        (holds_of_running (stepCpu_rflags hc (hs.excl.cpu c) l hl))) e

/-- **The interrupt discipline holds along every run.** -/
theorem Reachable.irqSafe (hr : Reachable true s) : IrqSafe s := by
  induction hr with
  | init locks₀ irq₀ => exact irqSafe_init locks₀ irq₀
  | step c a _ h ih => exact ih.step h

section InterruptDiscipline

/-- **What the interrupt discipline guarantees.** A CPU holding a lock has
its interrupt flag clear and takes no interrupt; the contexts under a
handler hold nothing; the step of `spin_unlock` restoring the flag sets it
to the flag saved by the call that acquired the lock; a `spin_trylock` that
failed returns with the flag it was called with, and its test-and-set leaves
the lock as it was. -/
def IrqDiscipline (s : State) : Prop :=
  (∀ c l, Holds (s.cpus c) l → (s.cpus c).irq = false ∧ step true s c .irq = none) ∧
  (∀ c, ∀ p ∈ (s.cpus c).saved, p.1.held = []) ∧
  (∀ c r g, (s.cpus c).ctx.pc = .unlockRestore r g →
    ∀ s', step true s c .run = some s' → (s'.cpus c).irq = g) ∧
  (∀ c l r, (s.cpus c).ctx.pc = .tryRet l false r → (s.cpus c).irq = r) ∧
  (∀ c l r, (s.cpus c).ctx.pc = .tryTas l r → (s.locks l).val = true →
    ∀ s', step true s c .run = some s' → s'.locks = s.locks)

end InterruptDiscipline

/-- **The interrupt discipline of the spinlock**, in every run where each
context releases its locks in the reverse order it acquired them. -/
theorem spinlock_irq_discipline (hr : Reachable true s) : IrqDiscipline s := by
  obtain ⟨-, hcpu⟩ := hr.irqSafe
  refine ⟨fun c l hl => ?_, fun c p hp => ((hcpu c).saved p hp).1, fun c r g hpc s' h => ?_,
    fun c l r hpc => ?_, fun c l r hpc hv s' h => ?_⟩
  · obtain ⟨⟨-, hoff, -, -⟩, hsaved⟩ := hcpu c
    have hsv : savedHeld (s.cpus c).saved = [] := by
      simp only [savedHeld, List.flatten_eq_nil_iff, List.mem_map]
      rintro _ ⟨p, hp, rfl⟩
      exact (hsaved p hp).1
    have hne : (s.cpus c).ctx.held ≠ [] := by
      rintro he
      simp [Holds, Cpu.allHeld, he, hsv, keys] at hl
    have hirq := flag_of_off hoff hne
    exact ⟨hirq, by simp [Spinlock.step, stepCpu, hirq]⟩
  · have hpi := (hcpu c).running.pc
    unfold PcIrq at hpi
    rw [hpc] at hpi
    simp only [Spinlock.step, stepCpu, runCtx, hpc, Option.map_some', Option.some.injEq] at h
    subst h
    simpa using hpi.2.1
  · have hpi := (hcpu c).running.pc
    unfold PcIrq at hpi
    rw [hpc] at hpi
    simpa using hpi.1
  · simp only [Spinlock.step, stepCpu, runCtx, hpc, atomicBitTestAndSet, hv, if_true,
      Option.map_some', Option.some.injEq] at h
    subst h
    funext l'
    by_cases e : l' = l
    · subst e
      cases hl : s.locks l'
      simp_all
    · simp [update_noteq e]

/-- CPU `0` takes lock `0` with its flag set; CPU `1`, its flag set too,
calls `spin_trylock(0)`, fails, and is about to return `false`. -/
theorem spinlock_irq_discipline_contended :
    ∃ s, runSchedule true (init (fun _ => ⟨false, false⟩) fun _ => true)
        [(0, .spinLock 0), (0, .run), (0, .run), (1, .spinTrylock 0), (1, .run), (1, .run)] =
        some s ∧
      Reachable true s ∧ Holds (s.cpus 0) 0 ∧ (s.cpus 0).irq = false ∧
      (s.cpus 1).ctx.pc = .tryRet 0 false true ∧ (s.cpus 1).irq = true ∧ IrqDiscipline s := by
  have hs : runSchedule true (init (fun _ => ⟨false, false⟩) fun _ => true)
      [(0, .spinLock 0), (0, .run), (0, .run), (1, .spinTrylock 0), (1, .run), (1, .run)] =
      some _ := rfl
  have hr := (Reachable.init _ _).runSchedule hs
  exact ⟨_, hs, hr, by decide, rfl, rfl, rfl, spinlock_irq_discipline hr⟩

end Spinlock

end Mcube
