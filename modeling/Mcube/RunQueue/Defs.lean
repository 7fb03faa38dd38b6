import Mcube.Ring

/-!
# The O(1) run-queue: the code

`kernel/queue/o1.c` keeps, per CPU, a `struct runqueue` made of an array of
`NR_PRIORITIES` list heads and a priority bitmap. A head is itself a
`struct thread_struct` whose only live fields are `next` and `prev`; a
queued thread hangs on the circular list of the head of its own
`priority`. The four functions below are the whole of the run-queue's
logic, and each is transcribed statement by statement: every line of C
reads the memory as the previous line left it, so a write through an alias
(`rq->array[p].prev` being `&rq->array[p]` itself on an empty list) is
seen by the next line exactly as in C.

The heap of `thread_struct`s is a function from `RqNode` – a list head of
the run-queue, or a thread – to the record of its fields. Pointers between
them are `RqNode`s, so a head and a thread can never be confused, which is
what their distinct addresses guarantee in C. `NR_PRIORITIES` is not under
`src/`; it is the parameter `nrPriorities` of everything that reads it.

The bit operations `set_bit`, `clear_bit` and `find_first_bit` are not under
`src/` either. They are modelled from the spec's description of the bitmap
("a bit-vector of length `NR_PRIORITIES`", "find the lowest-numbered set
bit … if no bit is set, return 'no runnable thread'"): `findFirstBit`
returns `nrPriorities` when no bit below it is set, which is the value
`pick_next_task` tests for.
-/

namespace Mcube

/-- A node of the run-queue's lists: the list head `run_tq[cpu].array[p]`,
or the `thread_struct` of thread `t`. -/
inductive RqNode where
  | head (p : ℕ)
  | thread (t : ℕ)
  deriving DecidableEq, Repr

/-- The fields of a `struct thread_struct` that the run-queue reads and
writes. -/
structure ThreadStruct where
  next : RqNode
  prev : RqNode
  priority : ℕ
  deriving DecidableEq, Repr

/-- One CPU's `struct runqueue`, together with the `thread_struct`s its lists
run through. -/
structure RunQueue where
  /-- Every `thread_struct`, list heads included. -/
  mem : RqNode → ThreadStruct
  /-- The priority bitmap, bit by bit. -/
  bitmap : ℕ → Bool

namespace RunQueue

variable (rq : RunQueue) (x y : RqNode) (p : ℕ)

/-- `x->next`. -/
def next : RqNode → RqNode := fun x => (rq.mem x).next

/-- `x->prev`. -/
def prev : RqNode → RqNode := fun x => (rq.mem x).prev

/-- `th->priority` of thread `th`. -/
def priority (th : ℕ) : ℕ := (rq.mem (.thread th)).priority

/-- `x->next = y`. -/
def setNext : RunQueue :=
  { rq with mem := Function.update rq.mem x { rq.mem x with next := y } }

/-- `x->prev = y`. -/
def setPrev : RunQueue :=
  { rq with mem := Function.update rq.mem x { rq.mem x with prev := y } }

/-- Modelled from the spec: `set_bit(rq->bitmap, p)` (not under `src/`)
sets bit `p` of the priority bitmap. -/
def setBit : RunQueue := { rq with bitmap := Function.update rq.bitmap p true }

/-- Modelled from the spec: `clear_bit(rq->bitmap, p)` (not under `src/`)
clears bit `p` of the priority bitmap. -/
def clearBit : RunQueue := { rq with bitmap := Function.update rq.bitmap p false }

@[simp] theorem next_setNext : (rq.setNext x y).next = Function.update rq.next x y := by
  funext z
  by_cases h : z = x
  · subst h; simp [setNext, next]
  · simp [setNext, next, h]

@[simp] theorem prev_setNext : (rq.setNext x y).prev = rq.prev := by
  funext z
  by_cases h : z = x
  · subst h; simp [setNext, prev]
  · simp [setNext, prev, h]

@[simp] theorem next_setPrev : (rq.setPrev x y).next = rq.next := by
  funext z
  by_cases h : z = x
  · subst h; simp [setPrev, next]
  · simp [setPrev, next, h]

@[simp] theorem prev_setPrev : (rq.setPrev x y).prev = Function.update rq.prev x y := by
  funext z
  by_cases h : z = x
  · subst h; simp [setPrev, prev]
  · simp [setPrev, prev, h]

@[simp] theorem priority_setNext : (rq.setNext x y).priority = rq.priority := by
  funext t
  by_cases h : RqNode.thread t = x
  · subst h; simp [setNext, priority]
  · simp [setNext, priority, Function.update_noteq h]

@[simp] theorem priority_setPrev : (rq.setPrev x y).priority = rq.priority := by
  funext t
  by_cases h : RqNode.thread t = x
  · subst h; simp [setPrev, priority]
  · simp [setPrev, priority, Function.update_noteq h]

@[simp] theorem bitmap_setNext : (rq.setNext x y).bitmap = rq.bitmap := rfl
@[simp] theorem bitmap_setPrev : (rq.setPrev x y).bitmap = rq.bitmap := rfl
@[simp] theorem next_setBit : (rq.setBit p).next = rq.next := rfl
@[simp] theorem prev_setBit : (rq.setBit p).prev = rq.prev := rfl
@[simp] theorem priority_setBit : (rq.setBit p).priority = rq.priority := rfl
@[simp] theorem bitmap_setBit : (rq.setBit p).bitmap = Function.update rq.bitmap p true := rfl
@[simp] theorem next_clearBit : (rq.clearBit p).next = rq.next := rfl
@[simp] theorem prev_clearBit : (rq.clearBit p).prev = rq.prev := rfl
@[simp] theorem priority_clearBit : (rq.clearBit p).priority = rq.priority := rfl
@[simp] theorem bitmap_clearBit :
    (rq.clearBit p).bitmap = Function.update rq.bitmap p false := rfl

/-- Writing a `next` field with the value it holds changes nothing. -/
theorem setNext_next_self : rq.setNext x (rq.next x) = rq := by simp [setNext, next]

/-- Writing a `prev` field with the value it holds changes nothing. -/
theorem setPrev_prev_self : rq.setPrev x (rq.prev x) = rq := by simp [setPrev, prev]

/-- Clearing a clear bit changes nothing. -/
theorem clearBit_of_false (h : rq.bitmap p = false) : rq.clearBit p = rq := by
  simp [clearBit, ← h]

end RunQueue

open RunQueue

/-- Modelled from the spec: `find_first_bit(bitmap, NR_PRIORITY_BITMAPS)`
(not under `src/`) is the lowest set bit of the `n`-bit priority bitmap, or
`n` when none is set. -/
def findFirstBit (bitmap : ℕ → Bool) : ℕ → ℕ
  | 0 => 0
  | n + 1 => if findFirstBit bitmap n < n then findFirstBit bitmap n
    else if bitmap n then n else n + 1

theorem findFirstBit_le (bitmap : ℕ → Bool) (n : ℕ) : findFirstBit bitmap n ≤ n := by
  induction n with
  | zero => rfl
  | succ n ih => simp only [findFirstBit]; split_ifs <;> omega

/-- **`findFirstBit` finds the lowest set bit**: below `n` it lands on a set
bit with none before it, and at `n` only when no bit below `n` is set. -/
theorem findFirstBit_spec (bitmap : ℕ → Bool) (n : ℕ) :
    (∀ i < findFirstBit bitmap n, bitmap i = false) ∧
      (findFirstBit bitmap n < n → bitmap (findFirstBit bitmap n) = true) := by
  induction n with
  | zero => simp [findFirstBit]
  | succ n ih =>
    have hle := findFirstBit_le bitmap n
    simp only [findFirstBit]
    split_ifs with h₁ h₂
    · exact ⟨ih.1, fun _ => ih.2 h₁⟩
    · have : findFirstBit bitmap n = n := by omega
      exact ⟨this ▸ ih.1, fun _ => h₂⟩
    · have : findFirstBit bitmap n = n := by omega
      refine ⟨fun i hi => ?_, by omega⟩
      rcases Nat.lt_succ_iff_lt_or_eq.1 hi with hi | rfl
      exacts [ih.1 i (by omega), by simpa using h₂]

section Code

variable (nrPriorities : ℕ)

/-- `enqueue_rq_queue_head`: put `th` at the front of the list of its
priority. -/
def enqueueRqQueueHead (rq : RunQueue) (th : ℕ) : RunQueue :=
  let p := rq.priority th
  let rq := rq.setBit p
  let rq := rq.setPrev (rq.next (.head p)) (.thread th)
  let rq := rq.setNext (.thread th) (rq.next (.head p))
  let rq := rq.setPrev (.thread th) (.head p)
  rq.setNext (.head p) (.thread th)

section Effects

open Function

variable (rq : RunQueue) (th : ℕ)

/-- What `enqueue_rq_queue_head` does to the `next` fields. -/
theorem enqueueRqQueueHead_next : (enqueueRqQueueHead rq th).next =
    update (update rq.next (.thread th) (rq.next (.head (rq.priority th))))
      (.head (rq.priority th)) (.thread th) := by
  simp [enqueueRqQueueHead]

/-- What `enqueue_rq_queue_head` does to the `prev` fields. -/
theorem enqueueRqQueueHead_prev : (enqueueRqQueueHead rq th).prev =
    update (update rq.prev (rq.next (.head (rq.priority th))) (.thread th))
      (.thread th) (.head (rq.priority th)) := by
  simp [enqueueRqQueueHead]

@[simp] theorem enqueueRqQueueHead_priority :
    (enqueueRqQueueHead rq th).priority = rq.priority := by
  simp [enqueueRqQueueHead]

theorem enqueueRqQueueHead_bitmap :
    (enqueueRqQueueHead rq th).bitmap = update rq.bitmap (rq.priority th) true := by
  simp [enqueueRqQueueHead]

end Effects

/-- `enqueue_rq_queue`: put `th` at the back of the list of its priority. -/
def enqueueRqQueue (rq : RunQueue) (th : ℕ) : RunQueue :=
  let p := rq.priority th
  let rq := rq.setBit p
  let rq := rq.setNext (rq.prev (.head p)) (.thread th)
  let rq := rq.setPrev (.thread th) (rq.prev (.head p))
  let rq := rq.setNext (.thread th) (.head p)
  rq.setPrev (.head p) (.thread th)

section Effects

open Function

variable (rq : RunQueue) (th : ℕ)

/-- What `enqueue_rq_queue` does to the `next` fields. -/
theorem enqueueRqQueue_next : (enqueueRqQueue rq th).next =
    update (update rq.next (rq.prev (.head (rq.priority th))) (.thread th))
      (.thread th) (.head (rq.priority th)) := by
  simp [enqueueRqQueue]

/-- What `enqueue_rq_queue` does to the `prev` fields. -/
theorem enqueueRqQueue_prev : (enqueueRqQueue rq th).prev =
    update (update rq.prev (.thread th) (rq.prev (.head (rq.priority th))))
      (.head (rq.priority th)) (.thread th) := by
  simp [enqueueRqQueue]

@[simp] theorem enqueueRqQueue_priority : (enqueueRqQueue rq th).priority = rq.priority := by
  simp [enqueueRqQueue]

theorem enqueueRqQueue_bitmap :
    (enqueueRqQueue rq th).bitmap = update rq.bitmap (rq.priority th) true := by
  simp [enqueueRqQueue]

end Effects

/-- `dequeue_rq_queue`: unlink `th` through its own `next` and `prev`, and
clear the priority's bit when its list is left empty. `th`'s own links are
left as they were. -/
def dequeueRqQueue (rq : RunQueue) (th : ℕ) : RunQueue :=
  let p := rq.priority th
  let rq := if rq.next (.head p) = .thread th then rq.setNext (.head p) (rq.next (.thread th))
    else rq.setNext (rq.prev (.thread th)) (rq.next (.thread th))
  let rq := rq.setPrev (rq.next (.thread th)) (rq.prev (.thread th))
  if rq.next (.head p) = .head p then rq.clearBit p else rq

/-- **The two branches of `dequeue_rq_queue` agree** when the head's
`next` is `th` only if `th`'s `prev` is the head: both write `th`'s successor
into its predecessor's `next`. -/
theorem dequeueRqQueue_eq (rq : RunQueue) (th : ℕ)
    (hfirst : rq.next (.head (rq.priority th)) = .thread th →
      rq.prev (.thread th) = .head (rq.priority th))
    (hne : rq.prev (.thread th) ≠ .thread th) :
    dequeueRqQueue rq th =
      let rq' := (rq.setNext (rq.prev (.thread th)) (rq.next (.thread th))).setPrev
        (rq.next (.thread th)) (rq.prev (.thread th))
      if rq'.next (.head (rq.priority th)) = .head (rq.priority th) then
        rq'.clearBit (rq.priority th) else rq' := by
  have hnx : (rq.setNext (rq.prev (.thread th)) (rq.next (.thread th))).next (.thread th) =
      rq.next (.thread th) := by simp [Function.update_noteq (Ne.symm hne)]
  by_cases h1 : rq.next (.head (rq.priority th)) = .thread th
  · simp only [dequeueRqQueue, if_pos h1, ← hfirst h1] at hnx ⊢
    simp [hnx]
  · simp only [dequeueRqQueue, if_neg h1] at hnx ⊢
    simp [hnx]

/-- Under the same conditions the only `next` written is that of `th`'s
predecessor, which becomes `th`'s successor. -/
theorem dequeueRqQueue_next (rq : RunQueue) (th : ℕ)
    (hfirst : rq.next (.head (rq.priority th)) = .thread th →
      rq.prev (.thread th) = .head (rq.priority th))
    (hne : rq.prev (.thread th) ≠ .thread th) :
    (dequeueRqQueue rq th).next =
      Function.update rq.next (rq.prev (.thread th)) (rq.next (.thread th)) := by
  rw [dequeueRqQueue_eq rq th hfirst hne]; dsimp only; split_ifs <;> simp

/-- `pick_next_task` on the calling CPU's run-queue: the first thread of the
lowest set priority, without dequeuing it; `none` is `NULL`. The index kept
in `bindex[cpu]` is only a scratch copy of `findFirstBit`'s result. -/
def pickNextTask (rq : RunQueue) : Option RqNode :=
  let bindex := findFirstBit rq.bitmap nrPriorities
  if bindex ≠ nrPriorities then some (rq.next (.head bindex)) else none

/-- `init_rq`, its loop run up to `i`: heads `0 … i - 1` point to
themselves. -/
def initRq : ℕ → RunQueue → RunQueue
  | 0, rq => rq
  | i + 1, rq => ((initRq i rq).setNext (.head i) (.head i)).setPrev (.head i) (.head i)

/-- The run-queue at boot: `run_tq` zero-initialised, so no bit is set,
then `init_rq`. The threads' own fields are whatever memory holds. -/
def boot (mem : RqNode → ThreadStruct) : RunQueue :=
  initRq nrPriorities ⟨mem, fun _ => false⟩

end Code

end Mcube
