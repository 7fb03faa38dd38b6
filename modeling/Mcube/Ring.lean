import Mathlib.Data.List.Nodup
import Mathlib.Logic.Function.Basic

/-!
# Circular doubly-linked lists

Both list implementations of the kernel – the type-generic `list_node` of
`include/mcube/list.h` and the per-priority thread lists of the O(1)
run-queue in `kernel/queue/o1.c` – thread their elements on circular
doubly-linked lists through a `next` and a `prev` field. What the C code
maintains, and what every operation has to leave intact, is one shape:
starting from a node and following `next` one meets a sequence of nodes and
comes back, and every step of the walk is mirrored by `prev`.

`Chain next prev a l b` says this of an open stretch: from `a`, following
`next` meets the nodes of `l` in order and then `b`, and for each step
`x → y` of the walk, `prev y = x`. A ring through `h` holding `l` is
`Chain next prev h l h`. `Walk next a l b` is the `next`-only half, the walk
a reader of the list performs; it is what the abstraction of the run-queue
reads, and it determines `l` once `b` does not occur in it
(`Walk.unique`).

The pointer heaps of the two implementations differ, so everything here is
stated over two bare functions `next prev : α → α`. The lemmas a splice
needs are the cut at a node (`chain_append_cons`), the frame rule
(`Chain.frame`: a stretch reads `next` only at its sources and `prev` only at
its targets) and the rotation of a ring to start at any of its nodes
(`chain_rotate`). What a write through stale links does is read off forward
walks: a walk that stops short of a cycle's start passes through a prefix of
it (`Walk.isPrefix`), and from any node of a cycle no walk leaves it
(`Walk.not_of_mem_cycle`).
-/

namespace Mcube

variable {α : Type*}

/-- **A doubly-linked stretch**: from `a`, `next` visits `l` in order and
then reaches `b`, each step mirrored by `prev`. -/
def Chain (next prev : α → α) : α → List α → α → Prop
  | a, [], b => next a = b ∧ prev b = a
  | a, x :: l, b => next a = x ∧ prev x = a ∧ Chain next prev x l b

/-- **A forward walk**: from `a`, `next` visits `l` in order and then
reaches `b`. -/
def Walk (next : α → α) : α → List α → α → Prop
  | a, [], b => next a = b
  | a, x :: l, b => next a = x ∧ Walk next x l b

/-- Deciding a stretch by following it. -/
def decChain [DecidableEq α] (next prev : α → α) : ∀ a l b, Decidable (Chain next prev a l b)
  | a, [], b => @instDecidableAnd _ _ (decEq (next a) b) (decEq (prev b) a)
  | a, x :: l, b => @instDecidableAnd _ _ (decEq (next a) x)
      (@instDecidableAnd _ _ (decEq (prev x) a) (decChain next prev x l b))

/-- Deciding a forward walk by following it. -/
def decWalk [DecidableEq α] (next : α → α) : ∀ a l b, Decidable (Walk next a l b)
  | a, [], b => decEq (next a) b
  | a, x :: l, b => @instDecidableAnd _ _ (decEq (next a) x) (decWalk next x l b)

instance [DecidableEq α] {next prev : α → α} {a b : α} {l : List α} :
    Decidable (Chain next prev a l b) := decChain next prev a l b

instance [DecidableEq α] {next : α → α} {a b : α} {l : List α} :
    Decidable (Walk next a l b) := decWalk next a l b

variable {next prev next' prev' : α → α} {a b x : α} {l l₁ l₂ : List α}

@[simp] theorem chain_nil : Chain next prev a [] b ↔ next a = b ∧ prev b = a := Iff.rfl

@[simp] theorem chain_cons :
    Chain next prev a (x :: l) b ↔ next a = x ∧ prev x = a ∧ Chain next prev x l b :=
  Iff.rfl

@[simp] theorem walk_nil : Walk next a [] b ↔ next a = b := Iff.rfl

@[simp] theorem walk_cons : Walk next a (x :: l) b ↔ next a = x ∧ Walk next x l b :=
  Iff.rfl

/-- **Cutting a stretch at one of its nodes.** -/
theorem chain_append_cons :
    Chain next prev a (l₁ ++ x :: l₂) b ↔ Chain next prev a l₁ x ∧ Chain next prev x l₂ b := by
  induction l₁ generalizing a with
  | nil => simp [and_assoc]
  | cons y l₁ ih => simp [ih, and_assoc]

/-- The last step of a stretch, split off. -/
theorem chain_concat :
    Chain next prev a (l ++ [x]) b ↔ Chain next prev a l x ∧ next x = b ∧ prev b = x := by
  simp [chain_append_cons]

/-- **Rotation**: a ring read from another of its nodes. -/
theorem chain_rotate :
    Chain next prev a (l₁ ++ b :: l₂) a ↔ Chain next prev b (l₂ ++ a :: l₁) b := by
  rw [chain_append_cons, chain_append_cons, and_comm]

/-- **The frame rule**: a stretch reads `next` only at `a` and the nodes of
`l`, and `prev` only at the nodes of `l` and at `b`. -/
theorem Chain.frame (h : Chain next prev a l b) (hn : ∀ y ∈ a :: l, next' y = next y)
    (hp : ∀ y ∈ l ++ [b], prev' y = prev y) : Chain next' prev' a l b := by
  induction l generalizing a with
  | nil =>
    simp only [chain_nil, List.nil_append, List.mem_singleton, forall_eq,
      List.mem_cons, List.not_mem_nil, or_false] at *
    rw [hn, hp]
    exact h
  | cons y l ih =>
    simp only [chain_cons, List.mem_cons, List.cons_append, forall_eq_or_imp] at *
    exact ⟨hn.1 ▸ h.1, hp.1 ▸ h.2.1, ih h.2.2 hn.2 hp.2⟩

/-- A stretch is in particular a forward walk. -/
theorem Chain.walk (h : Chain next prev a l b) : Walk next a l b := by
  induction l generalizing a with
  | nil => exact h.1
  | cons y l ih => exact ⟨h.1, ih h.2.2⟩

/-- **The forward walk determines the list** it passes through, once the
end does not occur in it: it is the list of nodes met before the first
return to `b`. -/
theorem Walk.unique {l' : List α} (h : Walk next a l b) (h' : Walk next a l' b)
    (hb : b ∉ l) (hb' : b ∉ l') : l = l' := by
  induction l generalizing a l' with
  | nil =>
    cases l' with
    | nil => rfl
    | cons y l' => exact absurd (List.mem_cons.2 (Or.inl (h.symm.trans h'.1))) hb'
  | cons y l ih =>
    cases l' with
    | nil => exact absurd (List.mem_cons.2 (Or.inl (h'.symm.trans h.1))) hb
    | cons y' l' =>
      obtain rfl : y = y' := h.1.symm.trans h'.1
      simp only [List.mem_cons, not_or] at hb hb'
      rw [ih h.2 h'.2 hb.2 hb'.2]

/-- Cutting a forward walk at one of its nodes. -/
theorem walk_append_cons :
    Walk next a (l₁ ++ x :: l₂) b ↔ Walk next a l₁ x ∧ Walk next x l₂ b := by
  induction l₁ generalizing a with
  | nil => simp
  | cons y l₁ ih => simp [ih, and_assoc]

/-- The frame rule for a forward walk: it reads `next` only at `a` and the
nodes of `l`. -/
theorem Walk.frame (h : Walk next a l b) (hn : ∀ y ∈ a :: l, next' y = next y) :
    Walk next' a l b := by
  induction l generalizing a with
  | nil => exact (hn a (List.mem_singleton_self a)).trans h
  | cons y l ih =>
    exact ⟨(hn a (List.mem_cons_self _ _)).trans h.1,
      ih h.2 fun z hz => hn z (List.mem_cons_of_mem _ hz)⟩

/-- A walk from `a` is a walk from any `x` whose successor is `a`'s, as long
as the nodes of `l` keep theirs. -/
theorem Walk.restart (h : Walk next a l b) (hx : next' x = next a)
    (hn : ∀ y ∈ l, next' y = next y) : Walk next' x l b := by
  cases l with
  | nil => exact hx.trans h
  | cons y l =>
    exact ⟨hx.trans h.1, h.2.frame fun z hz => hn z hz⟩

/-- **A walk caught in a cycle never leaves it**: from a node on a cycle
that avoids `b`, no forward walk reaches `b`. -/
theorem Walk.not_of_cycle {c : List α} (hc : Walk next x c x) (hb : b ∉ x :: c) :
    ¬Walk next x l b := by
  induction l generalizing x c with
  | nil =>
    intro h
    cases c with
    | nil =>
      have e : b = x := (walk_nil.1 h).symm.trans (walk_nil.1 hc)
      exact hb (e ▸ List.mem_cons_self _ _)
    | cons y c =>
      have e : b = y := (walk_nil.1 h).symm.trans hc.1
      exact hb (e ▸ List.mem_cons_of_mem _ (List.mem_cons_self _ _))
  | cons y l ih =>
    rintro ⟨rfl, h⟩
    cases c with
    | nil => exact ih hc hb (hc ▸ h)
    | cons z c =>
      obtain ⟨rfl, hc⟩ := hc
      refine ih (c := c ++ [x]) (walk_append_cons.2 ⟨hc, rfl⟩) (fun hm => hb ?_) h
      simp only [List.mem_cons, List.mem_append, List.mem_singleton] at hm ⊢
      tauto

/-- The end of a forward walk is fixed by its start and the nodes it passes. -/
theorem Walk.end_eq {b' : α} (h : Walk next a l b) (h' : Walk next a l b') : b = b' := by
  induction l generalizing a with
  | nil => exact h.symm.trans h'
  | cons y l ih => exact ih h.2 h'.2

/-- **A walk that stops short of a cycle's start follows the cycle**: the
nodes it passes are a prefix of the cycle's. -/
theorem Walk.isPrefix {z : α} (hc : Walk next a c z) (hz : z ∉ c) (hm : Walk next a l b)
    (hzl : z ∉ l) : l <+: c := by
  induction l generalizing a c with
  | nil => exact List.nil_prefix
  | cons y l ih =>
    cases c with
    | nil => exact absurd (List.mem_cons.2 (Or.inl (hc.symm.trans hm.1))) hzl
    | cons y' c =>
      obtain rfl : y' = y := hc.1.symm.trans hm.1
      simp only [List.mem_cons, not_or] at hz hzl
      exact List.cons_prefix_cons.2 ⟨rfl, ih hc.2 hz.2 hm.2 hzl.2⟩

/-- Rotation of a cycle walked forward. -/
theorem walk_rotate : Walk next a (l₁ ++ b :: l₂) a ↔ Walk next b (l₂ ++ a :: l₁) b := by
  rw [walk_append_cons, walk_append_cons, and_comm]

/-- **A cycle read from any of its nodes** passes through the same nodes. -/
theorem Walk.rotate_of_mem {c : List α} (hc : Walk next x c x) (hy : a ∈ x :: c) :
    ∃ c', Walk next a c' a ∧ (a :: c').Perm (x :: c) := by
  rcases List.mem_cons.1 hy with rfl | hy
  · exact ⟨c, hc, .refl _⟩
  · obtain ⟨c₁, c₂, rfl⟩ := List.append_of_mem hy
    exact ⟨c₂ ++ x :: c₁, walk_rotate.1 hc, @List.perm_append_comm _ (a :: c₂) (x :: c₁)⟩

/-- From any node of a cycle that avoids `b`, no forward walk reaches `b`. -/
theorem Walk.not_of_mem_cycle {c : List α} (hc : Walk next x c x) (ha : a ∈ x :: c)
    (hb : b ∉ x :: c) : ¬Walk next a l b :=
  let ⟨_, hc', hp⟩ := hc.rotate_of_mem ha
  hc'.not_of_cycle fun hm => hb (hp.subset hm)

/-- On a ring, the successor's predecessor is the node itself. -/
theorem Chain.prev_next_self (h : Chain next prev a l a) : prev (next a) = a := by
  cases l with
  | nil => rw [h.1, h.2]
  | cons y l => rw [h.1, h.2.1]

/-- On a ring, the predecessor's successor is the node itself. -/
theorem Chain.next_prev_self (h : Chain next prev a l a) : next (prev a) = a := by
  rcases l.eq_nil_or_concat with rfl | ⟨l, z, rfl⟩
  · rw [h.2, h.1]
  · rw [List.concat_eq_append, chain_concat] at h
    rw [h.2.2, h.2.1]

/-- A stretch starting at `a` has `a`'s successor among its targets. -/
theorem Chain.next_mem (h : Chain next prev a l b) : next a ∈ l ++ [b] := by
  cases l with
  | nil => simp [h.1]
  | cons y l => simp [h.1]

/-- The successor of a stretch's start: its first node, or its end. -/
theorem Chain.next_eq_headD (h : Chain next prev a l b) : next a = l.headD b := by
  cases l <;> exact h.1

/-- On a ring, the successor of the start is one of its nodes. -/
theorem Chain.next_mem_ring (h : Chain next prev a l a) : next a ∈ a :: l :=
  (List.perm_append_singleton a l).mem_iff.1 h.next_mem

/-- A stretch ending at `b` has `b`'s predecessor among its sources. -/
theorem Chain.prev_mem (h : Chain next prev a l b) : prev b ∈ a :: l := by
  induction l generalizing a with
  | nil => simp [h.2]
  | cons y l ih => exact List.mem_cons_of_mem _ (ih h.2.2)

/-! ## Splicing a ring

The list operations of the kernel rewrite two `next` fields and two `prev`
fields. Each of the three shapes below is stated once, as the functions
`next` and `prev` become after the writes, and used by both list
implementations. -/

section Splice

variable [DecidableEq α]

open Function

/-- The frame rule for two point writes away from the stretch. -/
theorem Chain.update_frame (h : Chain next prev a l b) {y z v w : α}
    (hy : y ∉ a :: l) (hz : z ∉ l ++ [b]) :
    Chain (update next y v) (update prev z w) a l b :=
  h.frame (fun _ hu => update_noteq (ne_of_mem_of_not_mem hu hy) _ _)
    (fun _ hu => update_noteq (ne_of_mem_of_not_mem hu hz) _ _)

/-- The frame rule for a ring: two point writes away from all its nodes. -/
theorem Chain.update_frame_ring (h : Chain next prev a l a) {y z v w : α}
    (hy : y ∉ a :: l) (hz : z ∉ a :: l) :
    Chain (update next y v) (update prev z w) a l a :=
  h.update_frame hy fun hm => hz (by simp at hm ⊢; tauto)

/-- **Insertion right after the head** (`list_add`,
`enqueue_rq_queue_head`): `x` becomes the first node of the ring. -/
theorem chain_insert_after (h : Chain next prev a l a) (hnd : (a :: l).Nodup)
    (hx : x ∉ a :: l) :
    Chain (update (update next x (next a)) a x) (update (update prev (next a) x) x a)
      a (x :: l) a := by
  have hxa : x ≠ a := fun e => hx (e ▸ List.mem_cons_self _ _)
  cases l with
  | nil => simp [update_apply, h.1, hxa, hxa.symm]
  | cons y l =>
    obtain ⟨rfl, hpy, hl⟩ := h
    simp only [List.nodup_cons, List.mem_cons, not_or] at hnd hx
    refine ⟨by simp, by simp [hxa], by simp [hxa], by simp [Ne.symm hx.2.1], ?_⟩
    exact (hl.update_frame (by simp [hx.2.2, hx.2.1]) (by simp [hnd.2.1, Ne.symm hnd.1.1])).update_frame
      (by simp [hnd.1.1, hnd.1.2]) (by simp [hx.2.2, hxa])

/-- **Insertion right before the head** (`list_add_tail`,
`enqueue_rq_queue`): `x` becomes the last node of the ring. -/
theorem chain_insert_before (h : Chain next prev a l a) (hnd : (a :: l).Nodup)
    (hx : x ∉ a :: l) :
    Chain (update (update next (prev a) x) x a) (update (update prev x (prev a)) a x)
      a (l ++ [x]) a := by
  have hxa : x ≠ a := fun e => hx (e ▸ List.mem_cons_self _ _)
  rcases l.eq_nil_or_concat with rfl | ⟨l, z, rfl⟩
  · simp [update_apply, h.2, hxa, hxa.symm]
  · rw [List.concat_eq_append] at *
    rw [chain_concat] at h
    obtain ⟨hl, hz, rfl⟩ := h
    simp only [List.nodup_cons, List.mem_append, List.mem_cons, List.mem_singleton, not_or,
      List.not_mem_nil, or_false, List.nodup_append, List.disjoint_singleton] at hnd hx
    rw [List.append_assoc, List.singleton_append, ← List.singleton_append, ← List.append_assoc,
      chain_concat, chain_concat]
    refine ⟨⟨?_, by simp [update_apply, Ne.symm hx.2.2], by simp [hxa]⟩, by simp, by simp⟩
    exact (hl.update_frame (by simp [Ne.symm hnd.1.2, hnd.2.2.2]) (by simp [hx.2.1, hx.2.2])).update_frame
      (by simp [hxa, hx.2.1]) (by simp [hnd.1.1, hnd.1.2])

/-- **Unlinking a node** (`list_del`, `dequeue_rq_queue`): its
predecessor's `next` and its successor's `prev` are made to skip it. -/
theorem chain_delete (h : Chain next prev a (l₁ ++ x :: l₂) a)
    (hnd : (a :: (l₁ ++ x :: l₂)).Nodup) :
    Chain (update next (prev x) (next x)) (update prev (next x) (prev x)) a (l₁ ++ l₂) a := by
  rw [chain_append_cons] at h
  obtain ⟨h₁, h₂⟩ := h
  rcases l₁.eq_nil_or_concat with rfl | ⟨l₁, z, rfl⟩
  · obtain ⟨ha, rfl⟩ := h₁
    cases l₂ with
    | nil => simp [h₂.1]
    | cons y l₂ =>
      obtain ⟨rfl, hy, hl⟩ := h₂
      simp only [List.nil_append, List.nodup_cons, List.mem_cons, not_or] at hnd
      simp only [List.nil_append, chain_cons, update_same, true_and]
      exact hl.update_frame (by simp [hnd.1.2.1, hnd.1.2.2]) (by simp [hnd.2.2.1, Ne.symm hnd.1.2.1])
  · simp only [List.concat_eq_append] at *
    rw [chain_concat] at h₁
    obtain ⟨hl₁, hz, rfl⟩ := h₁
    rw [List.append_assoc, List.singleton_append, List.nodup_cons, List.mem_append,
      List.nodup_append] at hnd
    simp only [List.mem_cons, not_or, List.nodup_cons, List.disjoint_cons_right,
      List.mem_singleton] at hnd
    rw [List.append_assoc, List.singleton_append, chain_append_cons]
    cases l₂ with
    | nil =>
      obtain ⟨rfl, hx⟩ := h₂
      obtain ⟨⟨hal, haz, -⟩, -, -, hzl, -⟩ := hnd
      exact ⟨hl₁.update_frame (by simp [Ne.symm haz, hzl]) (by simp [hal, haz]), by simp, by simp⟩
    | cons y l₂ =>
      obtain ⟨rfl, hy, hl₂⟩ := h₂
      simp only [List.mem_cons, not_or, List.nodup_cons, List.disjoint_cons_right] at hnd
      obtain ⟨⟨-, haz, -, hay, -⟩, -, ⟨⟨-, hzy, hzl₂⟩, -, hyl₂, -⟩, hzl₁, -, hyl₁, -⟩ := hnd
      exact ⟨hl₁.update_frame (by simp [Ne.symm haz, hzl₁]) (by simp [hyl₁, Ne.symm hzy]),
        by simp, by simp,
        hl₂.update_frame (by simp [hzy, hzl₂]) (by simp [hyl₂, Ne.symm hay])⟩

end Splice

end Mcube
