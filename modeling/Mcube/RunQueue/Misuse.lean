import Mcube.RunQueue.Invariant

/-!
# The O(1) run-queue under misuse

The spec makes enqueueing a thread that is already queued, and dequeueing one
that is not, a programming error to be caught and ended in a fault. The
run-queue code has no such check: `enqueue_rq_queue`, `enqueue_rq_queue_head`
and `dequeue_rq_queue` write through whatever `next` and `prev` they find, and
neither has a path that stops.

What misuse then does is read off the same splices as correct use. A
dequeue of a thread that left the run-queue earlier writes through the links
it kept: `th->prev->next = th->next` and `th->next->prev = th->prev`. While
those two nodes are still neighbours the writes change nothing
(`Represents.dequeueRqQueue_stale`); once threads have been enqueued between
them, the first write skips them and they silently leave the run-queue
(`Represents.dequeueRqQueue_stale_drops`, and the run of
`dequeueRqQueue_stale_counterexample`). A second enqueue of a queued thread
is never harmless: the list of its priority stops being a ring, with `th`'s
`prev` pointing outside the stretch that reaches it
(`Represents.enqueueRqQueue_queued`) or with the walk from the head caught in a
cycle that never returns (`Represents.enqueueRqQueueHead_queued`).
-/

namespace Mcube

open Function RunQueue

variable {nrPriorities : ℕ} {rq : RunQueue} {q : ℕ → List ℕ} {th : ℕ}

namespace Represents

variable (h : Represents nrPriorities rq q)
include h

/-- The head of a thread's priority does not point to it while it is on no
queue: `dequeue_rq_queue` then takes its second branch. -/
theorem next_head_ne_thread (hp : rq.priority th < nrPriorities) (ht : ∀ p, th ∉ q p) :
    rq.next (.head (rq.priority th)) ≠ .thread th := fun e =>
  ht _ (thread_mem_ringNodes.1 (e ▸ (h.chain _ hp).next_mem_ring))

/-- **A stale dequeue between neighbours that are still adjacent changes
nothing.** -/
theorem dequeueRqQueue_stale (hp : rq.priority th < nrPriorities) (ht : ∀ p, th ∉ q p)
    (hn : rq.next (rq.prev (.thread th)) = rq.next (.thread th))
    (hv : rq.prev (rq.next (.thread th)) = rq.prev (.thread th)) :
    Mcube.dequeueRqQueue rq th = rq := by
  have h₁ : rq.setNext (rq.prev (.thread th)) (rq.next (.thread th)) = rq := by
    rw [← hn, setNext_next_self]
  have h₂ : rq.setPrev (rq.next (.thread th)) (rq.prev (.thread th)) = rq := by
    rw [← hv, setPrev_prev_self]
  simp only [Mcube.dequeueRqQueue, if_neg (h.next_head_ne_thread hp ht), h₁, h₂]
  split_ifs with he
  · refine clearBit_of_false _ _ ?_
    rw [h.next_head hp] at he
    cases hq : q (rq.priority th) with
    | nil => simpa [hq] using h.bitmap (rq.priority th)
    | cons t l => simp [hq] at he
  · rfl

/-- **A stale dequeue drops the threads queued since.** When `th` is on no
queue and the `prev` it kept lies on the ring of some priority `p`, the write
`th->prev->next = th->next` links that node straight to the `next` `th`
kept: every thread the ring passes through from one to the other, before it
first comes back, is queued before the call and on no queue after it. -/
theorem dequeueRqQueue_stale_drops (hp : rq.priority th < nrPriorities) (ht : ∀ p, th ∉ q p)
    {p : ℕ} (hp' : p < nrPriorities) (ha : rq.prev (.thread th) ∈ ringNodes q p) {m : List ℕ}
    (ham : rq.prev (.thread th) ∉ m.map .thread)
    (hm : Walk rq.next (rq.prev (.thread th)) (m.map .thread) (rq.next (.thread th)))
    {u : ℕ} (hu : u ∈ m) :
    u ∈ q p ∧ ¬Queued nrPriorities (Mcube.dequeueRqQueue rq th) u := by
  set a := rq.prev (.thread th)
  set b := rq.next (.thread th)
  have hne : a ≠ .thread th := fun e => ht p (thread_mem_ringNodes.1 (e ▸ ha))
  have hN : (Mcube.dequeueRqQueue rq th).next = update rq.next a b :=
    dequeueRqQueue_next rq th (fun e => absurd e (h.next_head_ne_thread hp ht)) hne
  -- the ring of `p` read from `a`: first the threads of `m`, then the rest `r`
  obtain ⟨R, hR, hperm⟩ := (h.chain p hp').walk.rotate_of_mem ha
  have hnd : (a :: R).Nodup := hperm.nodup_iff.2 (h.ringNodes_nodup p)
  obtain ⟨r, rfl⟩ := hR.isPrefix (List.nodup_cons.1 hnd).1 hm ham
  rw [List.nodup_cons, List.mem_append, not_or, List.nodup_append] at hnd
  have hum : RqNode.thread u ∈ m.map .thread := List.mem_map_of_mem _ hu
  have huP : RqNode.thread u ∈ ringNodes q p :=
    hperm.subset (List.mem_cons_of_mem _ (List.mem_append_left _ hum))
  -- after the write, `a` closes the ring over `r` alone
  have hcyc : Walk (update rq.next a b) a r a := by
    cases r with
    | nil => simp [← (List.append_nil (m.map RqNode.thread) ▸ hR).end_eq hm]
    | cons y r =>
      obtain ⟨h₁, h₂⟩ := walk_append_cons.1 hR
      obtain rfl := h₁.end_eq hm
      refine ⟨update_same _ _ _, h₂.frame fun z hz => update_noteq ?_ _ _⟩
      rintro rfl
      exact hnd.1.2 hz
  have hur : RqNode.thread u ∉ a :: r := fun hm' => (List.mem_cons.1 hm').elim
    (fun e => ham (e ▸ hum)) (hnd.2.2.2 hum)
  have hhead : RqNode.head p ∈ a :: r := by
    simpa using hperm.symm.subset head_mem_ringNodes
  refine ⟨thread_mem_ringNodes.1 huP, ?_⟩
  rintro ⟨p', hp'', xs, hw, hx⟩
  obtain ⟨s₁, s₂, rfl⟩ := List.append_of_mem hx
  rw [hN, List.map_append, List.map_cons, walk_append_cons] at hw
  rcases eq_or_ne p' p with rfl | hpp
  · exact hcyc.not_of_mem_cycle hhead hur hw.1
  · -- the ring of another priority does not pass through `a`
    have hc : Walk (update rq.next a b) (.head p') ((q p').map .thread) (.head p') :=
      (h.chain p' hp'').walk.frame fun z hz =>
        update_noteq (fun e => hpp (h.eq_of_mem_ringNodes (e ▸ hz) ha)) _ _
    exact hc.not_of_cycle (fun hm' => hpp (h.eq_of_mem_ringNodes hm' huP)) hw.1

/-- **Enqueueing a queued thread at the back breaks its ring**: no list of
threads is a ring through the head of its priority any more. -/
theorem enqueueRqQueue_queued (ht : th ∈ q (rq.priority th)) :
    ¬∃ xs : List ℕ, Chain (Mcube.enqueueRqQueue rq th).next (Mcube.enqueueRqQueue rq th).prev
      (.head (rq.priority th)) (xs.map .thread) (.head (rq.priority th)) := by
  rintro ⟨xs, hxs⟩
  set P := rq.priority th
  obtain ⟨s₁, s₂, hs⟩ := List.append_of_mem ht
  have hchain := h.chain P (h.lt_of_mem ht)
  have hnd := h.ringNodes_nodup P
  rw [hs, List.map_append, List.map_cons] at hchain
  rw [ringNodes, hs, List.map_append, List.map_cons, ← List.cons_append, List.nodup_append] at hnd
  obtain ⟨h₁, h₂⟩ := chain_append_cons.1 hchain
  -- the old last node `z` lies after `th`, away from the stretch that reaches it
  have hz : rq.prev (.head P) ∉ RqNode.head P :: s₁.map .thread :=
    fun hm => hnd.2.2 hm h₂.prev_mem
  have hth : RqNode.thread th ∉ RqNode.head P :: s₁.map .thread :=
    fun hm => hnd.2.2 hm (List.mem_cons_self _ _)
  rw [enqueueRqQueue_next, enqueueRqQueue_prev] at hxs
  have hw : Walk (update (update rq.next (rq.prev (.head P)) (.thread th)) (.thread th) (.head P))
      (.head P) ((s₁ ++ [th]).map .thread) (.head P) := by
    rw [List.map_append, List.map_singleton, walk_append_cons]
    refine ⟨h₁.walk.frame fun y hy => ?_, by simp⟩
    rw [update_noteq (ne_of_mem_of_not_mem hy hth), update_noteq (ne_of_mem_of_not_mem hy hz)]
  rw [← hw.unique hxs.walk (by simp) (by simp), List.map_append, List.map_singleton,
    chain_concat] at hxs
  have hprev := hxs.1.prev_mem
  rw [update_noteq (by simp), update_same] at hprev
  exact hz hprev

/-- **Enqueueing a queued thread at the front breaks its ring**: the walk
from the head falls into a cycle through `th` that never comes back. -/
theorem enqueueRqQueueHead_queued (ht : th ∈ q (rq.priority th)) :
    ¬∃ xs : List ℕ, Chain (Mcube.enqueueRqQueueHead rq th).next (Mcube.enqueueRqQueueHead rq th).prev
      (.head (rq.priority th)) (xs.map .thread) (.head (rq.priority th)) := by
  rintro ⟨xs, hxs⟩
  set P := rq.priority th
  obtain ⟨s₁, s₂, hs⟩ := List.append_of_mem ht
  have hchain := h.chain P (h.lt_of_mem ht)
  have hnd := h.ringNodes_nodup P
  rw [hs, List.map_append, List.map_cons] at hchain
  rw [ringNodes, hs, List.map_append, List.map_cons, ← List.cons_append, List.nodup_append] at hnd
  have hth : RqNode.thread th ∉ RqNode.head P :: s₁.map .thread :=
    fun hm => hnd.2.2 hm (List.mem_cons_self _ _)
  have hw := hxs.walk
  rw [enqueueRqQueueHead_next] at hw
  -- from `th`, the walk runs through the threads before it and back to `th`
  have hcycle : Walk (update (update rq.next (.thread th) (rq.next (.head P))) (.head P)
      (.thread th)) (.thread th) (s₁.map .thread) (.thread th) :=
    (chain_append_cons.1 hchain).1.walk.restart (by simp) fun y hy => by
      have hyh : y ≠ .head P := by simp at hy; obtain ⟨t, -, rfl⟩ := hy; simp
      rw [update_noteq hyh, update_noteq (ne_of_mem_of_not_mem (List.mem_cons_of_mem _ hy) hth)]
  cases xs with
  | nil => simp at hw
  | cons x xs =>
    obtain ⟨hx, hw⟩ := hw
    rw [update_same] at hx
    rw [← hx] at hw
    exact hcycle.not_of_cycle (by simp) hw

end Represents

section UncheckedMisuse

variable (nrPriorities)

/-- **What misuse does**, the operations checking nothing and never
stopping. Dequeueing a thread that is not queued, whose `prev` and `next`
are still neighbours, changes nothing. When its `prev` is still a head or a
queued thread, every thread the ring passes through from there to its
`next` leaves the run-queue. Enqueueing a thread that is queued, at the back
or at the front, leaves the list of its priority no longer a ring. -/
def UncheckedMisuse (rq : RunQueue) : Prop :=
  (∀ th, rq.priority th < nrPriorities → ¬Queued nrPriorities rq th →
    rq.next (rq.prev (.thread th)) = rq.next (.thread th) →
    rq.prev (rq.next (.thread th)) = rq.prev (.thread th) →
    dequeueRqQueue rq th = rq) ∧
  (∀ th (m : List ℕ), rq.priority th < nrPriorities → ¬Queued nrPriorities rq th →
    ((∃ p < nrPriorities, rq.prev (.thread th) = .head p) ∨
      ∃ t, rq.prev (.thread th) = .thread t ∧ Queued nrPriorities rq t) →
    rq.prev (.thread th) ∉ m.map .thread →
    Walk rq.next (rq.prev (.thread th)) (m.map .thread) (rq.next (.thread th)) →
    ∀ u ∈ m, Queued nrPriorities rq u ∧ ¬Queued nrPriorities (dequeueRqQueue rq th) u) ∧
  (∀ th, Queued nrPriorities rq th →
    (¬∃ xs : List ℕ, Chain (enqueueRqQueue rq th).next (enqueueRqQueue rq th).prev
      (.head (rq.priority th)) (xs.map .thread) (.head (rq.priority th))) ∧
    (¬∃ xs : List ℕ, Chain (enqueueRqQueueHead rq th).next (enqueueRqQueueHead rq th).prev
      (.head (rq.priority th)) (xs.map .thread) (.head (rq.priority th))))

end UncheckedMisuse

/-- **The run-queue under misuse**, on every reachable run-queue. -/
theorem runQueue_misuse (hr : Reachable nrPriorities rq) : UncheckedMisuse nrPriorities rq := by
  obtain ⟨q, h⟩ := hr.represents
  have hfree : ∀ th, ¬Queued nrPriorities rq th → ∀ p, th ∉ q p :=
    fun th hq p hm => hq (h.queued_iff.2 ⟨p, hm⟩)
  refine ⟨fun th hp hq hn hv => h.dequeueRqQueue_stale hp (hfree th hq) hn hv,
    fun th m hp hq ha ham hm u hu => ?_, fun th hq => ?_⟩
  · obtain ⟨p, hp', ha'⟩ : ∃ p < nrPriorities, rq.prev (.thread th) ∈ ringNodes q p := by
      rcases ha with ⟨p, hp', e⟩ | ⟨t, e, ht⟩
      · exact ⟨p, hp', e ▸ head_mem_ringNodes⟩
      · obtain ⟨p, hm⟩ := h.queued_iff.1 ht
        exact ⟨p, h.lt_of_mem hm, e ▸ thread_mem_ringNodes.2 hm⟩
    obtain ⟨hup, hnot⟩ := h.dequeueRqQueue_stale_drops hp (hfree th hq) hp' ha' ham hm hu
    exact ⟨h.queued_iff.2 ⟨p, hup⟩, hnot⟩
  · obtain ⟨p, hm⟩ := h.queued_iff.1 hq
    exact ⟨h.enqueueRqQueue_queued (h.mem_priority hm), h.enqueueRqQueueHead_queued (h.mem_priority hm)⟩

/-- With one priority: thread `1` enqueued and dequeued, then thread `2`
enqueued. Thread `1` still holds the links it had. -/
theorem reachable_requeue :
    Reachable 1 (enqueueRqQueue (dequeueRqQueue (enqueueRqQueue
      (boot 1 fun _ => ⟨.head 0, .head 0, 0⟩) 1) 1) 2) := by
  have hq₁ : Queued 1 (enqueueRqQueue (boot 1 fun _ => ⟨.head 0, .head 0, 0⟩) 1) 1 :=
    ⟨0, by decide, [1], by simp only [List.map, walk_cons, walk_nil]; decide,
      List.mem_singleton_self _⟩
  exact .enqueueRqQueue (.dequeueRqQueue (.enqueueRqQueue (.boot _) (by decide)
    (not_queued_of_heads (by decide))) hq₁) (by decide) (not_queued_of_heads (by decide))

theorem runQueue_misuse_after_requeue :
    Reachable 1 (enqueueRqQueue (dequeueRqQueue (enqueueRqQueue
      (boot 1 fun _ => ⟨.head 0, .head 0, 0⟩) 1) 1) 2) ∧
    UncheckedMisuse 1 (enqueueRqQueue (dequeueRqQueue (enqueueRqQueue
      (boot 1 fun _ => ⟨.head 0, .head 0, 0⟩) 1) 1) 2) :=
  ⟨reachable_requeue, runQueue_misuse reachable_requeue⟩

/-- **A stale dequeue loses a queued thread.** With one priority, thread `1`
is enqueued and dequeued, thread `2` is enqueued, and thread `1` is dequeued
again through the links it kept: the call completes, and thread `2`, queued
before it, is queued no more. -/
theorem dequeueRqQueue_stale_counterexample :
    let mem : RqNode → ThreadStruct := fun _ => ⟨.head 0, .head 0, 0⟩
    let rq₂ := dequeueRqQueue (enqueueRqQueue (boot 1 mem) 1) 1
    let rq₃ := enqueueRqQueue rq₂ 2
    Reachable 1 rq₃ ∧ ¬Queued 1 rq₂ 1 ∧ ¬Queued 1 rq₃ 1 ∧ Queued 1 rq₃ 2 ∧
      ¬Queued 1 (dequeueRqQueue rq₃ 1) 2 := by
  intro mem rq₂ rq₃
  have hw₃ : Walk rq₃.next (.head 0) ([2].map .thread) (.head 0) := by
    simp only [List.map, walk_cons, walk_nil]; decide
  refine ⟨reachable_requeue, not_queued_of_heads (by decide), ?_,
    ⟨0, by decide, [2], hw₃, List.mem_singleton_self _⟩, not_queued_of_heads (by decide)⟩
  rintro ⟨p, hp, xs, hw, hx⟩
  obtain rfl : p = 0 := by omega
  have hx' := List.mem_map_of_mem RqNode.thread hx
  rw [hw.unique hw₃ (by simp) (by simp)] at hx'
  simp at hx'

end Mcube
