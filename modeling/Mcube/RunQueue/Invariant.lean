import Mcube.RunQueue.Defs

/-!
# The O(1) run-queue: its invariant and what it implements

What the run-queue is for is a queue of thread identifiers per priority,
`q : ℕ → List ℕ`, and a pick that returns the first thread of the
non-empty queue of smallest priority index. `Represents nrPriorities rq q`
says that the pointer structure of `rq` is that abstract state: for every
priority `p` below `NR_PRIORITIES`, the ring through `array[p]` passes
through the threads of `q p` in order, each link mirrored by `prev`; no
thread is queued twice; every queued thread sits on the list of its own
`priority`; and bit `p` of the bitmap is set exactly when `q p` is
non-empty.

The three operations keep the representation, each changing `q` by the
list operation the spec names: `enqueue_rq_queue` appends, `enqueue_rq_queue_head`
prepends, `dequeue_rq_queue` erases (`Represents.enqueueRqQueue`,
`Represents.enqueueRqQueueHead`, `Represents.dequeueRqQueue`). Their
preconditions are the ones the spec states – a thread is enqueued only when
it is on no list and has a priority below `NR_PRIORITIES`, and dequeued only
when it is queued – and nothing else is assumed of the heap: a thread's own
`next` and `prev` are arbitrary until it is enqueued.
-/

namespace Mcube

open Function RunQueue

variable {nrPriorities : ℕ} {rq : RunQueue} {q : ℕ → List ℕ} {th p : ℕ}

/-- The nodes of the ring of priority `p` when it holds `q p`: the head,
then the threads. -/
def ringNodes (q : ℕ → List ℕ) (p : ℕ) : List RqNode := .head p :: (q p).map .thread

@[simp] theorem head_mem_ringNodes : RqNode.head p ∈ ringNodes q p := List.mem_cons_self _ _

@[simp] theorem thread_mem_ringNodes : RqNode.thread th ∈ ringNodes q p ↔ th ∈ q p := by
  simp [ringNodes]

section

variable (nrPriorities)

/-- **The run-queue `rq` represents the queues `q`.** -/
structure Represents (rq : RunQueue) (q : ℕ → List ℕ) : Prop where
  /-- The ring through `array[p]` holds the threads of `q p`, in order. -/
  chain : ∀ p < nrPriorities, Chain rq.next rq.prev (.head p) ((q p).map .thread) (.head p)
  /-- No thread is twice on one list. -/
  nodup : ∀ p, (q p).Nodup
  /-- A queued thread is on the list of its own priority. -/
  priority : ∀ p, ∀ t ∈ q p, rq.priority t = p
  /-- There are no lists beyond `NR_PRIORITIES`. -/
  beyond : ∀ p, nrPriorities ≤ p → q p = []
  /-- The bitmap flags exactly the non-empty lists. -/
  bitmap : ∀ p, rq.bitmap p = true ↔ q p ≠ []

end

namespace Represents

variable (h : Represents nrPriorities rq q)
include h

theorem ringNodes_nodup (p : ℕ) : (ringNodes q p).Nodup :=
  List.nodup_cons.2 ⟨by simp, (h.nodup p).map fun _ _ => RqNode.thread.inj⟩

/-- **Rings of different priorities are disjoint.** -/
theorem eq_of_mem_ringNodes {x : RqNode} {p p' : ℕ} (hx : x ∈ ringNodes q p)
    (hx' : x ∈ ringNodes q p') : p = p' := by
  simp only [ringNodes, List.mem_cons, List.mem_map] at hx hx'
  rcases hx with rfl | ⟨t, ht, rfl⟩ <;> rcases hx' with hx' | ⟨t', ht', hx'⟩ <;>
    simp only [RqNode.head.injEq, RqNode.thread.injEq, reduceCtorEq] at hx'
  · exact hx'
  · subst hx'; exact (h.priority p _ ht).symm.trans (h.priority p' _ ht')

/-- A thread queued anywhere is queued at its own priority. -/
theorem mem_priority {p' : ℕ} (ht : th ∈ q p') : th ∈ q (rq.priority th) :=
  h.priority p' th ht ▸ ht

theorem lt_of_mem {p' : ℕ} (ht : th ∈ q p') : p' < nrPriorities := by
  by_contra hp
  simp [h.beyond p' (not_lt.1 hp)] at ht

/-- Writes at two nodes off the ring of `p` leave that ring as it is. -/
theorem chain_frame {p : ℕ} (hp : p < nrPriorities) {y y' z z' v v' w w' : RqNode}
    (hy : y ∉ ringNodes q p) (hy' : y' ∉ ringNodes q p) (hz : z ∉ ringNodes q p)
    (hz' : z' ∉ ringNodes q p) :
    Chain (update (update rq.next y v) y' v') (update (update rq.prev z w) z' w')
      (.head p) ((q p).map .thread) (.head p) :=
  ((h.chain p hp).update_frame_ring hy hz).update_frame_ring hy' hz'

/-- **What both enqueues share**: the queue of `th`'s priority becomes a
list `l` holding `th` and the threads it held, bit `p` is set, and nothing
else but the rings changes. -/
theorem of_enqueue {rq' : RunQueue} {l : List ℕ} (hp : rq.priority th < nrPriorities)
    (hl : ∀ t, t ∈ l ↔ t = th ∨ t ∈ q (rq.priority th)) (hnd : l.Nodup)
    (hprio : rq'.priority = rq.priority)
    (hbit : rq'.bitmap = update rq.bitmap (rq.priority th) true)
    (hchain : ∀ p < nrPriorities, Chain rq'.next rq'.prev (.head p)
      ((update q (rq.priority th) l p).map .thread) (.head p)) :
    Represents nrPriorities rq' (update q (rq.priority th) l) where
  chain := hchain
  nodup p := by
    by_cases hpp : p = rq.priority th
    · subst hpp; simpa using hnd
    · simpa [update_noteq hpp] using h.nodup p
  priority p t ht := by
    rw [hprio]
    by_cases hpp : p = rq.priority th
    · subst hpp
      rcases (hl t).1 (by simpa using ht) with rfl | ht
      exacts [rfl, h.priority _ _ ht]
    · exact h.priority p t (by simpa [update_noteq hpp] using ht)
  beyond p hp' := by
    rw [update_noteq (by omega)]
    exact h.beyond p hp'
  bitmap p := by
    rw [hbit]
    by_cases hpp : p = rq.priority th
    · subst hpp
      simpa using List.ne_nil_of_mem ((hl th).2 (Or.inl rfl))
    · simpa [update_noteq hpp] using h.bitmap p

/-- **`enqueue_rq_queue` appends** `th` to the queue of its priority. -/
theorem enqueueRqQueue (hp : rq.priority th < nrPriorities) (hq : ∀ p, th ∉ q p) :
    Represents nrPriorities (enqueueRqQueue rq th)
      (update q (rq.priority th) (q (rq.priority th) ++ [th])) := by
  refine h.of_enqueue hp (fun t => by simp [or_comm]) ?_ (by simp) (enqueueRqQueue_bitmap _ _) ?_
  · exact (h.nodup _).append (List.nodup_singleton _) (List.disjoint_singleton.2 (hq _))
  intro p' hp'
  rw [enqueueRqQueue_next, enqueueRqQueue_prev]
  have hprev := (h.chain _ hp).prev_mem
  by_cases hpp : p' = rq.priority th
  · subst hpp
    rw [update_same, List.map_append]
    exact chain_insert_before (h.chain _ hp) (h.ringNodes_nodup _) (by simpa using hq _)
  · rw [update_noteq hpp]
    exact h.chain_frame hp' (fun hm => hpp (h.eq_of_mem_ringNodes hm hprev))
      (by simpa using hq p') (by simpa using hq p')
      (fun hm => hpp (h.eq_of_mem_ringNodes hm head_mem_ringNodes))

/-- **`enqueue_rq_queue_head` prepends** `th` to the queue of its
priority. -/
theorem enqueueRqQueueHead (hp : rq.priority th < nrPriorities) (hq : ∀ p, th ∉ q p) :
    Represents nrPriorities (enqueueRqQueueHead rq th)
      (update q (rq.priority th) (th :: q (rq.priority th))) := by
  refine h.of_enqueue hp (fun t => by simp) (List.nodup_cons.2 ⟨hq _, h.nodup _⟩) (by simp)
    (enqueueRqQueueHead_bitmap _ _) ?_
  intro p' hp'
  rw [enqueueRqQueueHead_next, enqueueRqQueueHead_prev]
  have hnext : rq.next (.head (rq.priority th)) ∈ ringNodes q (rq.priority th) := by
    have := (h.chain _ hp).next_mem
    simp only [List.mem_append, List.mem_singleton] at this
    rcases this with hm | hm
    · exact List.mem_cons_of_mem _ hm
    · rw [hm]; exact head_mem_ringNodes
  by_cases hpp : p' = rq.priority th
  · subst hpp
    rw [update_same, List.map_cons]
    exact chain_insert_after (h.chain _ hp) (h.ringNodes_nodup _) (by simpa using hq _)
  · rw [update_noteq hpp]
    exact h.chain_frame hp' (by simpa using hq p')
      (fun hm => hpp (h.eq_of_mem_ringNodes hm head_mem_ringNodes))
      (fun hm => hpp (h.eq_of_mem_ringNodes hm hnext)) (by simpa using hq p')

/-- **`dequeue_rq_queue` erases** `th` from the queue of its priority. -/
theorem dequeueRqQueue (ht : th ∈ q (rq.priority th)) :
    Represents nrPriorities (dequeueRqQueue rq th)
      (update q (rq.priority th) ((q (rq.priority th)).erase th)) := by
  set P := rq.priority th with hP
  have hp : P < nrPriorities := h.lt_of_mem ht
  have hnd := h.nodup P
  obtain ⟨s₁, s₂, hs⟩ := List.append_of_mem ht
  rw [hs, List.nodup_middle, List.nodup_cons] at hnd
  have hth₁ : th ∉ s₁ := fun hm => hnd.1 (List.mem_append_left _ hm)
  have hchain := h.chain P hp
  rw [hs, List.map_append, List.map_cons] at hchain
  have hnd' := h.ringNodes_nodup P
  rw [ringNodes, hs, List.map_append, List.map_cons] at hnd'
  have hsplit := chain_append_cons.1 hchain
  -- the unlinked thread's neighbours lie on its own ring, and differ from it
  have hprev := hsplit.1.prev_mem
  have hnext := hsplit.2.next_mem
  have hne : rq.prev (.thread th) ≠ .thread th := fun e => by
    rw [e] at hprev
    simp [hth₁] at hprev
  have hfirst : rq.next (.head P) = .thread th → rq.prev (.thread th) = .head P := by
    cases s₁ with
    | nil => exact fun _ => hsplit.1.2
    | cons y s₁ =>
      intro e
      rw [hsplit.1.1, RqNode.thread.injEq] at e
      simp [e] at hth₁
  have hdel := chain_delete hchain hnd'
  rw [← List.map_append] at hdel
  have herase : (q P).erase th = s₁ ++ s₂ := by
    rw [hs, List.erase_append_right _ hth₁, List.erase_cons_head]
  -- the list of `P` is left empty exactly when `s₁ ++ s₂` is
  have hempty : update rq.next (rq.prev (.thread th)) (rq.next (.thread th)) (.head P) = .head P
      ↔ s₁ ++ s₂ = [] := by
    cases hl : s₁ ++ s₂ with
    | nil => rw [hl] at hdel; simpa using hdel.1
    | cons y l => rw [hl] at hdel; simp [hdel.1]
  obtain ⟨hN, hV, hR⟩ : (Mcube.dequeueRqQueue rq th).next =
        update rq.next (rq.prev (.thread th)) (rq.next (.thread th)) ∧
      (Mcube.dequeueRqQueue rq th).prev =
        update rq.prev (rq.next (.thread th)) (rq.prev (.thread th)) ∧
      (Mcube.dequeueRqQueue rq th).priority = rq.priority := by
    rw [dequeueRqQueue_eq rq th hfirst hne]; dsimp only; split_ifs <;> simp
  have hB : (Mcube.dequeueRqQueue rq th).bitmap =
      if s₁ ++ s₂ = [] then update rq.bitmap P false else rq.bitmap := by
    rw [dequeueRqQueue_eq rq th hfirst hne, ← hP]
    dsimp only
    simp only [next_setPrev, next_setNext, hempty]
    split_ifs <;> simp
  have hring : ∀ x ∈ RqNode.head P :: (s₁.map .thread ++ .thread th :: s₂.map .thread),
      x ∈ ringNodes q P := fun x hx => by simpa [ringNodes, hs] using hx
  have hprevR := hring _ (List.mem_cons.2 ((List.mem_cons.1 hprev).imp id
    (List.mem_append_left _)))
  refine ⟨fun p' hp' => ?_, fun p' => ?_, fun p' t ht' => ?_, fun p' hp' => ?_, fun p' => ?_⟩
  · rw [hN, hV]
    rcases eq_or_ne p' P with rfl | hpp
    · rw [update_same, herase]
      exact hdel
    · have hnextR := hring _ ((List.mem_append.1 hnext).elim
        (fun hm => List.mem_cons_of_mem _ (List.mem_append_right _ (List.mem_cons_of_mem _ hm)))
        (fun hm => List.mem_singleton.1 hm ▸ List.mem_cons_self _ _))
      rw [update_noteq hpp]
      exact (h.chain p' hp').update_frame_ring (fun hm => hpp (h.eq_of_mem_ringNodes hm hprevR))
        (fun hm => hpp (h.eq_of_mem_ringNodes hm hnextR))
  · rcases eq_or_ne p' P with rfl | hpp
    · simpa using (h.nodup _).erase th
    · simpa [update_noteq hpp] using h.nodup p'
  · rw [hR]
    rcases eq_or_ne p' P with rfl | hpp
    · exact h.priority _ _ (List.mem_of_mem_erase (by simpa using ht'))
    · exact h.priority p' t (by simpa [update_noteq hpp] using ht')
  · rw [update_noteq (by omega)]
    exact h.beyond p' hp'
  · rw [hB]
    rcases eq_or_ne p' P with rfl | hpp
    · rw [update_same, herase]
      split_ifs with he
      · simp [he]
      · simp [he, (h.bitmap _).2 (List.ne_nil_of_mem ht)]
    · split_ifs <;> simp [update_noteq hpp, h.bitmap p']

/-- The head of a represented priority points to the first queued thread,
or to itself when the queue is empty. -/
theorem next_head {p : ℕ} (hp : p < nrPriorities) :
    rq.next (.head p) = ((q p).head?.map .thread).getD (.head p) := by
  have := h.chain p hp
  cases hq : q p with
  | nil => rw [hq] at this; exact this.1
  | cons t l => rw [hq] at this; exact this.1

end Represents

/-- Boot leaves every head of `init_rq`'s loop pointing to itself. -/
theorem initRq_head {n p : ℕ} (rq : RunQueue) (hp : p < n) :
    (initRq n rq).next (.head p) = .head p ∧ (initRq n rq).prev (.head p) = .head p := by
  induction n with
  | zero => omega
  | succ n ih =>
    rcases eq_or_ne p n with rfl | hpn
    · simp [initRq]
    · have hne : RqNode.head p ≠ .head n := by simpa using hpn
      simpa [initRq, update_noteq hne] using ih (by omega)

@[simp] theorem initRq_bitmap (n : ℕ) (rq : RunQueue) : (initRq n rq).bitmap = rq.bitmap := by
  induction n with
  | zero => rfl
  | succ n ih => simpa [initRq] using ih

/-- **At boot the run-queue represents empty queues.** -/
theorem represents_boot (mem : RqNode → ThreadStruct) :
    Represents nrPriorities (boot nrPriorities mem) (fun _ => []) where
  chain _ hp := initRq_head _ hp
  nodup _ := List.nodup_nil
  priority _ _ ht := absurd ht (List.not_mem_nil _)
  beyond _ _ := rfl
  bitmap _ := by simp [boot]

section Runs

variable (nrPriorities)

/-- **Thread `th` is queued**: following `next` from the head of some
priority meets it before coming back to the head. -/
def Queued (rq : RunQueue) (th : ℕ) : Prop :=
  ∃ p < nrPriorities, ∃ xs : List ℕ, Walk rq.next (.head p) (xs.map .thread) (.head p) ∧ th ∈ xs

/-- **The run-queue states one CPU reaches** from boot by any sequence of
the three operations, each called on a thread as the spec requires. -/
inductive Reachable : RunQueue → Prop
  | boot (mem : RqNode → ThreadStruct) : Reachable (boot nrPriorities mem)
  | enqueueRqQueue {rq : RunQueue} {th : ℕ} : Reachable rq →
      rq.priority th < nrPriorities → ¬Queued nrPriorities rq th →
      Reachable (enqueueRqQueue rq th)
  | enqueueRqQueueHead {rq : RunQueue} {th : ℕ} : Reachable rq →
      rq.priority th < nrPriorities → ¬Queued nrPriorities rq th →
      Reachable (enqueueRqQueueHead rq th)
  | dequeueRqQueue {rq : RunQueue} {th : ℕ} : Reachable rq → Queued nrPriorities rq th →
      Reachable (dequeueRqQueue rq th)

/-- **The abstraction of the spec**, as a relation: `q p` is the sequence of
threads met following `next` from `array[p]` until it comes back, for every
priority below `NR_PRIORITIES`. -/
def Abs (rq : RunQueue) (q : ℕ → List ℕ) : Prop :=
  ∀ p < nrPriorities, Walk rq.next (.head p) ((q p).map .thread) (.head p)

end Runs

/-- The abstract pick: the first thread of the non-empty queue of smallest
priority index below `n`. -/
def pickFirst (q : ℕ → List ℕ) : ℕ → Option ℕ
  | 0 => none
  | n + 1 => (pickFirst q n).or (q n).head?

/-- The abstract pick below `n` reads only the queues below `n`. -/
theorem pickFirst_congr {q' : ℕ → List ℕ} {n : ℕ} (hq : ∀ p < n, q p = q' p) :
    pickFirst q n = pickFirst q' n := by
  induction n with
  | zero => rfl
  | succ n ih =>
    simp only [pickFirst, ih fun p hp => hq p (by omega), hq n (by omega)]

/-- **Scanning a bitmap that flags the non-empty queues is the abstract
pick.** -/
theorem pickFirst_eq_findFirstBit {b : ℕ → Bool} (hb : ∀ p, b p = true ↔ q p ≠ []) (n : ℕ) :
    pickFirst q n =
      if findFirstBit b n < n then (q (findFirstBit b n)).head? else none := by
  induction n with
  | zero => rfl
  | succ n ih =>
    have hle := findFirstBit_le b n
    simp only [pickFirst, findFirstBit, ih]
    by_cases h₁ : findFirstBit b n < n
    · obtain ⟨t, l, hq⟩ := List.exists_cons_of_ne_nil ((hb _).1 ((findFirstBit_spec b n).2 h₁))
      simp [h₁, hq, show findFirstBit b n < n + 1 by omega]
    · by_cases h₂ : b n = true
      · simp [h₁, h₂]
      · simp [h₁, h₂, show q n = [] by simpa [hb] using h₂]

namespace Represents

variable (h : Represents nrPriorities rq q)
include h

/-- **`pick_next_task` is the abstract pick**: `NULL` exactly when every
queue is empty, otherwise the first thread of the non-empty queue of
smallest priority index. -/
theorem pickNextTask_eq : pickNextTask nrPriorities rq = (pickFirst q nrPriorities).map .thread := by
  rw [pickFirst_eq_findFirstBit h.bitmap, pickNextTask]
  have hle := findFirstBit_le rq.bitmap nrPriorities
  by_cases hf : findFirstBit rq.bitmap nrPriorities < nrPriorities
  · obtain ⟨t, l, hq⟩ := List.exists_cons_of_ne_nil
      ((h.bitmap _).1 ((findFirstBit_spec rq.bitmap nrPriorities).2 hf))
    rw [if_pos (Nat.ne_of_lt hf), if_pos hf, h.next_head hf, hq]
    rfl
  · rw [if_neg (by omega), if_neg hf]
    rfl

/-- A represented run-queue has the walks it represents. -/
theorem abs : Abs nrPriorities rq q := fun p hp => (h.chain p hp).walk

/-- **The abstraction is a function** on represented run-queues. -/
theorem eq_of_abs {q' : ℕ → List ℕ} (h' : Abs nrPriorities rq q') {p : ℕ}
    (hp : p < nrPriorities) : q' p = q p :=
  List.map_injective_iff.2 (fun _ _ => RqNode.thread.inj)
    ((h' p hp).unique (h.chain p hp).walk (by simp) (by simp))

theorem queued_iff : Queued nrPriorities rq th ↔ ∃ p, th ∈ q p := by
  constructor
  · rintro ⟨p, hp, xs, hw, hx⟩
    have habs : Abs nrPriorities rq (update q p xs) := fun p' hp' => by
      rcases eq_or_ne p' p with rfl | hpp
      · simpa using hw
      · simpa [update_noteq hpp] using h.abs p' hp'
    exact ⟨p, h.eq_of_abs habs hp ▸ by simpa using hx⟩
  · rintro ⟨p, hx⟩
    exact ⟨p, h.lt_of_mem hx, q p, h.abs p (h.lt_of_mem hx), hx⟩

end Represents

/-- **Every reachable run-queue represents some queues.** -/
theorem Reachable.represents (hr : Reachable nrPriorities rq) :
    ∃ q, Represents nrPriorities rq q := by
  induction hr with
  | boot mem => exact ⟨_, represents_boot mem⟩
  | enqueueRqQueue _ hp hq ih =>
    obtain ⟨q, h⟩ := ih
    exact ⟨_, h.enqueueRqQueue hp fun p hm => hq (h.queued_iff.2 ⟨p, hm⟩)⟩
  | enqueueRqQueueHead _ hp hq ih =>
    obtain ⟨q, h⟩ := ih
    exact ⟨_, h.enqueueRqQueueHead hp fun p hm => hq (h.queued_iff.2 ⟨p, hm⟩)⟩
  | dequeueRqQueue _ hq ih =>
    obtain ⟨q, h⟩ := ih
    obtain ⟨p, hm⟩ := h.queued_iff.1 hq
    exact ⟨_, h.dequeueRqQueue (h.mem_priority hm)⟩

end Mcube

namespace Mcube

open Function RunQueue

variable {nrPriorities : ℕ} {rq : RunQueue} {q : ℕ → List ℕ}

/-- The abstraction only reads the priorities below `NR_PRIORITIES`. -/
theorem Abs.congr {q' : ℕ → List ℕ} (h : Abs nrPriorities rq q)
    (hq : ∀ p < nrPriorities, q' p = q p) : Abs nrPriorities rq q' :=
  fun p hp => hq p hp ▸ h p hp

/-- **A thread is queued exactly when the abstraction holds it** below
`NR_PRIORITIES`: the walk from each head is the one the abstraction reads. -/
theorem Abs.queued_iff {th : ℕ} (ha : Abs nrPriorities rq q) :
    Queued nrPriorities rq th ↔ ∃ p < nrPriorities, th ∈ q p := by
  constructor
  · rintro ⟨p, hp, xs, hw, hx⟩
    have e := List.map_injective_iff.2 (fun _ _ => RqNode.thread.inj)
      (hw.unique (ha p hp) (by simp) (by simp))
    exact ⟨p, hp, e ▸ hx⟩
  · rintro ⟨p, hp, hx⟩
    exact ⟨p, hp, q p, ha p hp, hx⟩

/-- A run-queue whose heads all point to themselves queues nothing. -/
theorem not_queued_of_heads {th : ℕ} (he : ∀ p < nrPriorities, rq.next (.head p) = .head p) :
    ¬Queued nrPriorities rq th := by
  rintro ⟨p, hp, xs, hw, hx⟩
  cases xs with
  | nil => simp at hx
  | cons t xs => exact RqNode.noConfusion ((he p hp).symm.trans hw.1)

section InvariantAndQueues

variable (nrPriorities)

/-- **The run-queue invariant**: for every priority `p` below
`NR_PRIORITIES` the ring through `array[p]` comes back to it through threads
of priority `p` only, each step `x → y` with `x->next == y` and
`y->prev == x`; no thread lies on two lists or twice on one; bit `p` of the
bitmap is set iff `array[p].next` is not `&array[p]`; and no bit at or above
`NR_PRIORITIES` is set. -/
def RunQueueInvariant (rq : RunQueue) : Prop :=
  ∃ q : ℕ → List ℕ,
    (∀ p < nrPriorities, Chain rq.next rq.prev (.head p) ((q p).map .thread) (.head p) ∧
      ∀ t ∈ q p, rq.priority t = p) ∧
    (∀ p, (q p).Nodup) ∧ (∀ p p' t, t ∈ q p → t ∈ q p' → p = p') ∧
    (∀ p < nrPriorities, rq.bitmap p = true ↔ rq.next (.head p) ≠ .head p) ∧
    (∀ p, nrPriorities ≤ p → rq.bitmap p = false)

/-- **The run-queue implements a queue per priority** at abstraction `q`:
`enqueue_rq_queue` appends a thread that is on no queue to the queue of its
priority, `enqueue_rq_queue_head` prepends it, and `dequeue_rq_queue` deletes
a queued thread, every other queue and the order of every other thread
unchanged; and `pick_next_task`, which changes nothing, returns `NULL`
exactly when every queue is empty and otherwise the first thread of the
non-empty queue of smallest priority index. -/
def ImplementsQueues (rq : RunQueue) (q : ℕ → List ℕ) : Prop :=
  (∀ th, rq.priority th < nrPriorities → (∀ p < nrPriorities, th ∉ q p) →
    Abs nrPriorities (enqueueRqQueue rq th)
      (update q (rq.priority th) (q (rq.priority th) ++ [th]))) ∧
  (∀ th, rq.priority th < nrPriorities → (∀ p < nrPriorities, th ∉ q p) →
    Abs nrPriorities (enqueueRqQueueHead rq th)
      (update q (rq.priority th) (th :: q (rq.priority th)))) ∧
  (∀ th, ∀ p < nrPriorities, th ∈ q p →
    Abs nrPriorities (dequeueRqQueue rq th)
      (update q (rq.priority th) ((q (rq.priority th)).erase th))) ∧
  pickNextTask nrPriorities rq = (pickFirst q nrPriorities).map .thread

end InvariantAndQueues

/-- **The run-queue invariant holds in every state a CPU's run-queue
reaches from boot.** -/
theorem runQueue_invariant (hr : Reachable nrPriorities rq) : RunQueueInvariant nrPriorities rq := by
  obtain ⟨q, h⟩ := hr.represents
  refine ⟨q, fun p hp => ⟨h.chain p hp, h.priority p⟩, h.nodup,
    fun p p' t ht ht' => (h.priority p t ht).symm.trans (h.priority p' t ht'),
    fun p hp => ?_, fun p hp => ?_⟩
  · rw [h.bitmap, h.next_head hp]
    cases q p <;> simp
  · simpa [h.beyond p hp] using h.bitmap p

/-- Two threads of priority `1` enqueued in turn on a freshly booted
run-queue with two priorities make a reachable state. -/
theorem reachable_boot_enqueue :
    Reachable 2 (enqueueRqQueue (enqueueRqQueue (boot 2 fun _ => ⟨.head 0, .head 0, 1⟩) 7) 8) :=
  .enqueueRqQueue (.enqueueRqQueue (.boot _) (by decide) (not_queued_of_heads (by decide)))
    (by decide) ((Abs.queued_iff (q := update (fun _ => []) 1 [7]) (by unfold Abs; decide)).not.2
      (by decide))

theorem runQueue_invariant_after_enqueue :
    Reachable 2 (enqueueRqQueue (enqueueRqQueue (boot 2 fun _ => ⟨.head 0, .head 0, 1⟩) 7) 8) ∧
      RunQueueInvariant 2
        (enqueueRqQueue (enqueueRqQueue (boot 2 fun _ => ⟨.head 0, .head 0, 1⟩) 7) 8) :=
  ⟨reachable_boot_enqueue, runQueue_invariant reachable_boot_enqueue⟩

/-- **The run-queue refines a queue per priority**: on every reachable
run-queue, with `q` its abstraction, each operation changes the abstraction
by the matching queue operation and `pick_next_task` is the abstract
pick. -/
theorem runQueue_refinement (hr : Reachable nrPriorities rq) (ha : Abs nrPriorities rq q) :
    ImplementsQueues nrPriorities rq q := by
  obtain ⟨q₀, h⟩ := hr.represents
  have hq : ∀ p < nrPriorities, q p = q₀ p := fun p hp => h.eq_of_abs ha hp
  have hfree : ∀ th, (∀ p < nrPriorities, th ∉ q p) → ∀ p, th ∉ q₀ p := fun th hth p hm =>
    hth p (h.lt_of_mem hm) (hq p (h.lt_of_mem hm) ▸ hm)
  have hupd : ∀ th (l : List ℕ), ∀ p < nrPriorities,
      update q (rq.priority th) l p = update q₀ (rq.priority th) l p := fun th l p hp => by
    rcases eq_or_ne p (rq.priority th) with rfl | hpp
    · simp
    · simp [update_noteq hpp, hq p hp]
  refine ⟨fun th hp hth => ?_, fun th hp hth => ?_, fun th p hp ht => ?_, ?_⟩
  · refine (h.enqueueRqQueue hp (hfree th hth)).abs.congr fun p' hp' => ?_
    rw [hupd th _ p' hp', hq _ hp]
  · refine (h.enqueueRqQueueHead hp (hfree th hth)).abs.congr fun p' hp' => ?_
    rw [hupd th _ p' hp', hq _ hp]
  · have hm := h.mem_priority (hq p hp ▸ ht)
    refine (h.dequeueRqQueue hm).abs.congr fun p' hp' => ?_
    rw [hupd th _ p' hp', hq _ (h.lt_of_mem hm)]
  · rw [h.pickNextTask_eq, pickFirst_congr hq]

/-- The two threads are queued in the order they arrived. -/
theorem runQueue_refinement_after_enqueue :
    Reachable 2 (enqueueRqQueue (enqueueRqQueue (boot 2 fun _ => ⟨.head 0, .head 0, 1⟩) 7) 8) ∧
      Abs 2 (enqueueRqQueue (enqueueRqQueue (boot 2 fun _ => ⟨.head 0, .head 0, 1⟩) 7) 8)
        (update (fun _ => []) 1 [7, 8]) ∧
      ImplementsQueues 2
        (enqueueRqQueue (enqueueRqQueue (boot 2 fun _ => ⟨.head 0, .head 0, 1⟩) 7) 8)
        (update (fun _ => []) 1 [7, 8]) :=
  have ha : Abs 2 (enqueueRqQueue (enqueueRqQueue (boot 2 fun _ => ⟨.head 0, .head 0, 1⟩) 7) 8)
      (update (fun _ => []) 1 [7, 8]) := by unfold Abs; decide
  ⟨reachable_boot_enqueue, ha, runQueue_refinement reachable_boot_enqueue ha⟩

end Mcube
