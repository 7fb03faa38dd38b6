import Mcube.Ring

/-!
# Type-generic doubly-linked lists

`include/mcube/list.h` threads any structure on circular doubly-linked lists
through an embedded `struct list_node`: a `next` and a `prev` pointer to
other `list_node`s, never to the structures around them. The five inline
functions below are transcribed statement by statement over a heap of
`list_node`s indexed by address, `0` being `NULL`; every line reads memory as
the previous line left it. An `assert` that fails ends the kernel, and is the
value `none`.

What the header maintains is a family of rings: every node in use lies on a
finite ring, each link mirrored by the `prev` of the next node, and no node
lies on two rings. `WellFormed hp rs` says the heap `hp` is made of the
rings `rs`, each listed from any of its nodes in `next` order. Each operation
is shown to turn a well-formed heap into a well-formed one whose rings are
the old ones with one splice (`WellFormed.listAdd`, `WellFormed.listAddTail`,
`WellFormed.listDel`); that is the representation invariant the header's
users rely on.
-/

namespace Mcube

/-- A `struct list_node`: the addresses its `next` and `prev` hold. -/
structure ListNode where
  next : ℕ
  prev : ℕ
  deriving DecidableEq, Repr

/-- The memory of `struct list_node`s, by address. -/
structure ListHeap where
  node : ℕ → ListNode

namespace ListHeap

variable (hp : ListHeap) (x y : ℕ)

/-- `x->next`. -/
def next : ℕ → ℕ := fun x => (hp.node x).next

/-- `x->prev`. -/
def prev : ℕ → ℕ := fun x => (hp.node x).prev

/-- `x->next = y`. -/
def setNext : ListHeap := ⟨Function.update hp.node x { hp.node x with next := y }⟩

/-- `x->prev = y`. -/
def setPrev : ListHeap := ⟨Function.update hp.node x { hp.node x with prev := y }⟩

@[simp] theorem next_setNext : (hp.setNext x y).next = Function.update hp.next x y := by
  funext z
  by_cases h : z = x
  · subst h; simp [setNext, next]
  · simp [setNext, next, h]

@[simp] theorem prev_setNext : (hp.setNext x y).prev = hp.prev := by
  funext z
  by_cases h : z = x
  · subst h; simp [setNext, prev]
  · simp [setNext, prev, h]

@[simp] theorem next_setPrev : (hp.setPrev x y).next = hp.next := by
  funext z
  by_cases h : z = x
  · subst h; simp [setPrev, next]
  · simp [setPrev, next, h]

@[simp] theorem prev_setPrev : (hp.setPrev x y).prev = Function.update hp.prev x y := by
  funext z
  by_cases h : z = x
  · subst h; simp [setPrev, prev]
  · simp [setPrev, prev, h]

/-- Writing a `next` field with the value it holds changes nothing. -/
theorem setNext_next_self : hp.setNext x (hp.next x) = hp := by simp [setNext, next]

/-- Writing a `prev` field with the value it holds changes nothing. -/
theorem setPrev_prev_self : hp.setPrev x (hp.prev x) = hp := by simp [setPrev, prev]

end ListHeap

open ListHeap Function

section Code

variable (hp : ListHeap) (node new : ℕ)

/-- `list_init`: make `node` a ring of its own. -/
def listInit : ListHeap := (hp.setNext node node).setPrev node node

/-- `list_empty`: whether `node` has no neighbour; `none` when one of its two
assertions fails. -/
def listEmpty : Option Bool :=
  if hp.next node = node then (if hp.prev node = node then some true else none)
  else if hp.prev node ≠ node then some false else none

/-- `list_add`: insert `new` right after `node`. -/
def listAdd : ListHeap :=
  let hp := hp.setNext new (hp.next node)
  let hp := hp.setPrev (hp.next new) new
  let hp := hp.setNext node new
  hp.setPrev new node

/-- `list_add_tail`: insert `new` right before `node`. -/
def listAddTail : ListHeap :=
  let hp := hp.setPrev new (hp.prev node)
  let hp := hp.setNext (hp.prev new) new
  let hp := hp.setPrev node new
  hp.setNext new node

/-- `list_del`: pop `node` out of its neighbours and make it a ring of its
own; `none` when one of its four assertions fails. -/
def listDel : Option ListHeap :=
  let prevn := hp.prev node
  let nextn := hp.next node
  if prevn ≠ 0 ∧ nextn ≠ 0 ∧ hp.next prevn = node ∧ hp.prev nextn = node then
    let hp := hp.setNext prevn (hp.next node)
    let hp := hp.setPrev nextn (hp.prev node)
    let hp := hp.setNext node node
    some (hp.setPrev node node)
  else none

end Code

section Effects

variable (hp : ListHeap) (node new : ℕ)

@[simp] theorem listInit_next : (listInit hp node).next = update hp.next node node := by
  simp [listInit]

@[simp] theorem listInit_prev : (listInit hp node).prev = update hp.prev node node := by
  simp [listInit]

theorem listAdd_next :
    (listAdd hp node new).next = update (update hp.next new (hp.next node)) node new := by
  simp [listAdd]

theorem listAdd_prev :
    (listAdd hp node new).prev = update (update hp.prev (hp.next node) new) new node := by
  simp [listAdd]

theorem listAddTail_next :
    (listAddTail hp node new).next = update (update hp.next (hp.prev node) new) new node := by
  simp [listAddTail]

theorem listAddTail_prev :
    (listAddTail hp node new).prev = update (update hp.prev new (hp.prev node)) node new := by
  simp [listAddTail]

/-- **What `list_del` does** when its assertions hold: the neighbours skip
`node`, which then points to itself. -/
theorem listDel_eq (h₀ : hp.prev node ≠ 0) (h₁ : hp.next node ≠ 0)
    (h₂ : hp.next (hp.prev node) = node) (h₃ : hp.prev (hp.next node) = node) :
    ∃ hp', listDel hp node = some hp' ∧
      hp'.next = update (update hp.next (hp.prev node) (hp.next node)) node node ∧
      hp'.prev = update (update hp.prev (hp.next node) (hp.prev node)) node node :=
  ⟨(((hp.setNext (hp.prev node) (hp.next node)).setPrev (hp.next node) (hp.prev node)).setNext
      node node).setPrev node node, by simp [listDel, h₀, h₁, h₂, h₃], by simp, by simp⟩

end Effects

/-! ## Rings of list nodes -/

/-- **A ring of the heap**, listed from any of its nodes in `next` order.
The empty list stands for no ring and holds vacuously. -/
def IsRing (hp : ListHeap) : List ℕ → Prop
  | [] => True
  | x :: l => Chain hp.next hp.prev x l x

instance {hp : ListHeap} {r : List ℕ} : Decidable (IsRing hp r) :=
  match r with
  | [] => isTrue trivial
  | x :: l => inferInstanceAs (Decidable (Chain hp.next hp.prev x l x))

/-- **A well-formed heap of rings**: each of `rs` is a ring, no node lies on
two of them or twice on one, and none is `NULL`. -/
structure WellFormed (hp : ListHeap) (rs : List (List ℕ)) : Prop where
  ring : ∀ r ∈ rs, IsRing hp r
  nodup : rs.flatten.Nodup
  null : 0 ∉ rs.flatten

variable {hp hp' : ListHeap} {rs rs₁ rs₂ rs' : List (List ℕ)} {r r₁ r₂ l : List ℕ} {x : ℕ}

/-- A ring may be listed from any of its nodes. -/
theorem isRing_rotate : IsRing hp (r₁ ++ x :: r₂) ↔ IsRing hp (x :: (r₂ ++ r₁)) := by
  cases r₁ with
  | nil => simp
  | cons a r₁ => exact chain_rotate

/-- A ring reads `next` and `prev` only at its own nodes. -/
theorem IsRing.frame (h : IsRing hp r) (hf : ∀ y ∈ r, hp'.next y = hp.next y ∧ hp'.prev y = hp.prev y) :
    IsRing hp' r := by
  cases r with
  | nil => trivial
  | cons a l =>
    exact Chain.frame h (fun y hy => (hf y hy).1)
      (fun y hy => (hf y (by simp at hy ⊢; tauto)).2)

/-- The nodes of a family of rings, one ring moved to the front. -/
theorem flatten_perm : (rs₁ ++ r :: rs₂).flatten.Perm (r ++ (rs₁ ++ rs₂).flatten) := by
  simp only [List.flatten_append, List.flatten_cons, ← List.append_assoc]
  exact List.perm_append_comm.append_right _

/-- Rotating one ring permutes the nodes of the family. -/
theorem flatten_rotate_perm :
    (rs₁ ++ (r₁ ++ x :: r₂) :: rs₂).flatten.Perm (rs₁ ++ (x :: (r₂ ++ r₁)) :: rs₂).flatten :=
  flatten_perm.trans
    (((List.perm_middle.trans (List.perm_append_comm.cons _)).append_right _).trans flatten_perm.symm)

namespace WellFormed

/-- The ring at one place of a well-formed family, and the nodes of the
rest. -/
theorem split (h : WellFormed hp (rs₁ ++ r :: rs₂)) :
    IsRing hp r ∧ r.Nodup ∧ (∀ y ∈ r, y ∉ (rs₁ ++ rs₂).flatten) ∧ 0 ∉ r := by
  have hnd := flatten_perm.nodup_iff.1 h.nodup
  rw [List.nodup_append] at hnd
  exact ⟨h.ring r (by simp), hnd.1, fun y hy hm => hnd.2.2 hy hm,
    fun h0 => h.null (flatten_perm.mem_iff.2 (List.mem_append_left _ h0))⟩

/-- **Replacing one ring by others**: the rest of the family is kept as long
as the heap is unchanged on its nodes. The new rings hold the old ring's nodes
and the fresh nodes `e`. -/
theorem replace (rs' : List (List ℕ)) (e : List ℕ) (h : WellFormed hp (rs₁ ++ r :: rs₂))
    (hr : ∀ r' ∈ rs', IsRing hp' r') (hperm : rs'.flatten.Perm (e ++ r))
    (hnd : (e ++ (rs₁ ++ r :: rs₂).flatten).Nodup) (he : 0 ∉ e)
    (hf : ∀ y ∈ (rs₁ ++ rs₂).flatten, hp'.next y = hp.next y ∧ hp'.prev y = hp.prev y) :
    WellFormed hp' (rs₁ ++ rs' ++ rs₂) := by
  have hp₁ : (rs₁ ++ rs' ++ rs₂).flatten.Perm (e ++ (rs₁ ++ r :: rs₂).flatten) := by
    have h₁ : (rs₁ ++ rs' ++ rs₂).flatten.Perm (rs'.flatten ++ (rs₁ ++ rs₂).flatten) := by
      simp only [List.flatten_append, ← List.append_assoc]
      exact List.perm_append_comm.append_right _
    refine h₁.trans ((hperm.append_right _).trans ?_)
    rw [List.append_assoc]
    exact flatten_perm.symm.append_left e
  have hrest : ∀ r' ∈ rs₁ ++ rs₂, IsRing hp' r' := fun r' hm =>
    (h.ring r' (by simp at hm ⊢; tauto)).frame fun y hy => hf y (List.mem_flatten.2 ⟨r', hm, hy⟩)
  refine ⟨fun r' hm => ?_, hp₁.nodup_iff.2 hnd, fun hm => ?_⟩
  · simp only [List.mem_append] at hm
    rcases hm with (hm | hm) | hm
    exacts [hrest r' (List.mem_append_left _ hm), hr r' hm, hrest r' (List.mem_append_right _ hm)]
  · rcases List.mem_append.1 (hp₁.mem_iff.1 hm) with hm | hm
    exacts [he hm, h.null hm]

/-- The order of the rings in a family does not matter. -/
theorem perm (h : WellFormed hp rs) (hperm : rs.Perm rs') : WellFormed hp rs' :=
  ⟨fun r hr => h.ring r (hperm.mem_iff.2 hr), hperm.flatten.nodup_iff.1 h.nodup,
    fun h0 => h.null (hperm.flatten.mem_iff.2 h0)⟩

/-- Rotating one ring of a well-formed family. -/
theorem rotate : WellFormed hp (rs₁ ++ (r₁ ++ x :: r₂) :: rs₂) ↔
    WellFormed hp (rs₁ ++ (x :: (r₂ ++ r₁)) :: rs₂) := by
  have hp₁ := @flatten_rotate_perm rs₁ rs₂ r₁ r₂ x
  constructor <;> intro h
  · refine ⟨fun r' hm => ?_, hp₁.nodup_iff.1 h.nodup, fun h0 => h.null (hp₁.mem_iff.2 h0)⟩
    simp only [List.mem_append, List.mem_cons] at hm
    rcases hm with hm | rfl | hm
    · exact h.ring r' (by simp [hm])
    · exact isRing_rotate.1 (h.ring _ (by simp))
    · exact h.ring r' (by simp [hm])
  · refine ⟨fun r' hm => ?_, hp₁.nodup_iff.2 h.nodup, fun h0 => h.null (hp₁.mem_iff.1 h0)⟩
    simp only [List.mem_append, List.mem_cons] at hm
    rcases hm with hm | rfl | hm
    · exact h.ring r' (by simp [hm])
    · exact isRing_rotate.2 (h.ring _ (by simp))
    · exact h.ring r' (by simp [hm])

end WellFormed

/-! ## The operations keep the rings -/

/-- A second `list_del` of a node that is a ring of its own changes nothing. -/
theorem listDel_self (hn : hp.next x = x) (hv : hp.prev x = x) (h0 : x ≠ 0) :
    listDel hp x = some hp := by
  have h₁ : hp.setNext x x = hp := by nth_rewrite 2 [← hn]; exact setNext_next_self hp x
  have h₂ : hp.setPrev x x = hp := by nth_rewrite 2 [← hv]; exact setPrev_prev_self hp x
  simp [listDel, hn, hv, h0, h₁, h₂]

namespace WellFormed

variable {node new : ℕ} {m : List ℕ}

/-- `list_init` on a node in no ring adds it as a ring of its own. -/
theorem listInit (h : WellFormed hp rs) (hn : new ∉ rs.flatten) (h0 : new ≠ 0) :
    WellFormed (Mcube.listInit hp new) (rs ++ [[new]]) := by
  refine ⟨fun r hr => ?_, ?_, ?_⟩
  · rcases List.mem_append.1 hr with hr | hr
    · exact (h.ring r hr).frame fun y hy => by
        have hy : y ≠ new := fun e => hn (List.mem_flatten.2 ⟨r, hr, e ▸ hy⟩)
        simp [update_noteq hy]
    · obtain rfl := List.mem_singleton.1 hr
      simp [IsRing]
  · simpa [List.nodup_append] using ⟨h.nodup, fun r hr hm => hn (List.mem_flatten.2 ⟨r, hr, hm⟩)⟩
  · simpa [Ne.symm h0] using h.null

section Insert

variable (h : WellFormed hp (rs₁ ++ (node :: l) :: rs₂))
  (hn : new ∉ (rs₁ ++ (node :: l) :: rs₂).flatten) (h0 : new ≠ 0)
include h hn h0

/-- **`list_add` puts `new` right after `node`** in `node`'s ring and keeps
every other ring. -/
theorem listAdd : WellFormed (Mcube.listAdd hp node new) (rs₁ ++ (node :: new :: l) :: rs₂) := by
  obtain ⟨hr, hnd, hdisj, -⟩ := h.split
  have hnr : new ∉ node :: l := fun hm => hn (flatten_perm.mem_iff.2 (List.mem_append_left _ hm))
  rw [List.append_cons]
  refine h.replace [node :: new :: l] [new]
    (by simpa [IsRing, listAdd_next, listAdd_prev] using chain_insert_after hr hnd hnr)
    (by simpa using List.Perm.swap new node l) (List.nodup_cons.2 ⟨hn, h.nodup⟩)
    (by simpa using Ne.symm h0) fun y hy => ?_
  have hne : ∀ z ∈ node :: l, y ≠ z := fun z hz e => hdisj y (e ▸ hz) hy
  have hyn : y ≠ new := fun e => hn (flatten_perm.mem_iff.2 (List.mem_append_right _ (e ▸ hy)))
  simp [listAdd_next, listAdd_prev, update_apply, hyn, hne node (List.mem_cons_self _ _),
    hne _ hr.next_mem_ring]

/-- **`list_add_tail` puts `new` right before `node`** in `node`'s ring and
keeps every other ring. -/
theorem listAddTail :
    WellFormed (Mcube.listAddTail hp node new) (rs₁ ++ (node :: (l ++ [new])) :: rs₂) := by
  obtain ⟨hr, hnd, hdisj, -⟩ := h.split
  have hnr : new ∉ node :: l := fun hm => hn (flatten_perm.mem_iff.2 (List.mem_append_left _ hm))
  rw [List.append_cons]
  refine h.replace [node :: (l ++ [new])] [new]
    (by simpa [IsRing, listAddTail_next, listAddTail_prev] using chain_insert_before hr hnd hnr)
    (by simpa using ((List.perm_append_singleton new l).cons node).trans (List.Perm.swap new node l))
    (List.nodup_cons.2 ⟨hn, h.nodup⟩) (by simpa using Ne.symm h0) fun y hy => ?_
  have hne : ∀ z ∈ node :: l, y ≠ z := fun z hz e => hdisj y (e ▸ hz) hy
  have hyn : y ≠ new := fun e => hn (flatten_perm.mem_iff.2 (List.mem_append_right _ (e ▸ hy)))
  simp [listAddTail_next, listAddTail_prev, update_apply, hyn, hne node (List.mem_cons_self _ _),
    hne _ hr.prev_mem]

end Insert

/-- **`list_del` takes `x` out of its ring**, which goes on without it, and
leaves `x` a ring of its own. -/
theorem listDel (h : WellFormed hp (rs₁ ++ (x :: m) :: rs₂)) :
    ∃ hp', Mcube.listDel hp x = some hp' ∧ WellFormed hp' (rs₁ ++ m :: [x] :: rs₂) ∧
      hp'.next x = x ∧ hp'.prev x = x := by
  obtain ⟨hr, hnd, hdisj, hz⟩ := h.split
  have hprev := hr.prev_mem
  have hnext := hr.next_mem_ring
  obtain ⟨hp', hdel, hn', hv'⟩ := listDel_eq hp x (fun e => hz (e ▸ hprev))
    (fun e => hz (e ▸ hnext)) hr.next_prev_self hr.prev_next_self
  have hx' : Chain hp'.next hp'.prev x [] x := by simp [hn', hv']
  refine ⟨hp', hdel, ?_, hx'.1, hx'.2⟩
  have hm : IsRing hp' m := by
    cases m with
    | nil => trivial
    | cons a m =>
      have hc : Chain hp.next hp.prev a (m ++ [x]) a :=
        chain_rotate.1 (show Chain hp.next hp.prev x ([] ++ a :: m) x from hr)
      have hd := chain_delete hc ((List.perm_append_singleton x (a :: m)).nodup_iff.2 hnd)
      rw [List.append_nil] at hd
      show Chain hp'.next hp'.prev a m a
      rw [hn', hv']
      exact hd.update_frame_ring (List.nodup_cons.1 hnd).1 (List.nodup_cons.1 hnd).1
  have hw : WellFormed hp' (rs₁ ++ [m, [x]] ++ rs₂) :=
    h.replace [m, [x]] []
      (List.forall_mem_cons.2 ⟨hm, List.forall_mem_cons.2 ⟨hx', fun _ h => (List.not_mem_nil _ h).elim⟩⟩)
      (by simp) h.nodup (List.not_mem_nil 0)
      fun y hy => by
        have hne : ∀ z ∈ x :: m, y ≠ z := fun z hz e => hdisj y (e ▸ hz) hy
        simp [hn', hv', update_apply, hne x (List.mem_cons_self _ _), hne _ hprev, hne _ hnext]
  rwa [List.append_assoc] at hw

/-- **`list_empty` answers without failing**: whether the ring of `x` holds
`x` alone. -/
theorem listEmpty (h : WellFormed hp (rs₁ ++ (x :: m) :: rs₂)) :
    Mcube.listEmpty hp x = some (decide (m = [])) := by
  obtain ⟨hr, hnd, -, -⟩ := h.split
  cases m with
  | nil => simp [Mcube.listEmpty, hr.1, hr.2]
  | cons a m =>
    have hx : x ∉ a :: m := (List.nodup_cons.1 hnd).1
    have hn : hp.next x ≠ x := fun e => hx (by rw [← e, hr.1]; exact List.mem_cons_self _ _)
    have hv : hp.prev x ≠ x := fun e => hx (e ▸ hr.2.2.prev_mem)
    simp [Mcube.listEmpty, hn, hv]

end WellFormed

/-! ## The header's representation invariant -/

section RingsPreserved

/-- **What the header guarantees on a well-formed heap**, each node named by
its place `r₁ ++ x :: r₂` in its ring: `list_init` makes a one-node ring, and
on a fresh node keeps the rest; `list_add` and `list_add_tail` put a fresh
node right after, respectively right before, `node`; `list_del` fails no
assertion, leaves the ring without `x` and `x` alone, and a second `list_del`
changes nothing; `list_empty` fails no assertion and tells whether the ring
holds `x` alone. -/
def ListRingsPreserved (hp : ListHeap) (rs : List (List ℕ)) : Prop :=
  (∀ n, IsRing (listInit hp n) [n] ∧
    (n ∉ rs.flatten → n ≠ 0 → WellFormed (listInit hp n) (rs ++ [[n]]))) ∧
  (∀ rs₁ r₁ node r₂ rs₂ new, rs = rs₁ ++ (r₁ ++ node :: r₂) :: rs₂ → new ∉ rs.flatten →
    new ≠ 0 →
    WellFormed (listAdd hp node new) (rs₁ ++ (node :: new :: (r₂ ++ r₁)) :: rs₂) ∧
    WellFormed (listAddTail hp node new) (rs₁ ++ (node :: (r₂ ++ r₁ ++ [new])) :: rs₂)) ∧
  (∀ rs₁ r₁ x r₂ rs₂, rs = rs₁ ++ (r₁ ++ x :: r₂) :: rs₂ →
    (∃ hp', listDel hp x = some hp' ∧ WellFormed hp' (rs₁ ++ (r₂ ++ r₁) :: [x] :: rs₂) ∧
      listDel hp' x = some hp') ∧
    listEmpty hp x = some (decide (r₂ ++ r₁ = [])))

end RingsPreserved

/-- **The rings of `list.h` are kept by every operation.** -/
theorem listNode_rings (hwf : WellFormed hp rs) : ListRingsPreserved hp rs := by
  refine ⟨fun n => ⟨by simp [IsRing], hwf.listInit⟩, ?_, ?_⟩
  · rintro rs₁ r₁ node r₂ rs₂ new rfl hn h0
    rw [WellFormed.rotate] at hwf
    have hn' := fun h => hn (flatten_rotate_perm.mem_iff.2 h)
    exact ⟨hwf.listAdd hn' h0, hwf.listAddTail hn' h0⟩
  · rintro rs₁ r₁ x r₂ rs₂ rfl
    rw [WellFormed.rotate] at hwf
    obtain ⟨hp', hdel, hw, hn, hv⟩ := hwf.listDel
    exact ⟨⟨hp', hdel, hw, listDel_self hn hv fun h0 => hwf.null (by simp [← h0])⟩, hwf.listEmpty⟩

theorem listNode_rings_two_node :
    let hp : ListHeap := ⟨fun a => if a = 1 then ⟨2, 2⟩ else if a = 2 then ⟨1, 1⟩ else ⟨0, 0⟩⟩
    WellFormed hp [[1, 2]] ∧ ListRingsPreserved hp [[1, 2]] := by
  intro hp
  have hw : WellFormed hp [[1, 2]] := ⟨by decide, by decide, by decide⟩
  exact ⟨hw, listNode_rings hw⟩

end Mcube
