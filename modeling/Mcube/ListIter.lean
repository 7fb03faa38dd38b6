import Mcube.List

/-!
# Iterating over a ring

`list_for_each(node, struc, name)` and
`list_for_each_safe(node, struc, spare_struc, name)` are `for` loops over the
ring of the list head `node`: the iterator starts on `node->next` and steps
along `next` until it is back on the head. `list_entry` turns a node's address
into the address of the structure around it and `&struc->name` turns it back;
the two cancel, so the iterator is modelled by the address of its node. The
loop body is the caller's code, a parameter: a function of the heap and of the
rest of memory `σ`, which is `none` where an `assert` of its own fails.

Both loops are modelled with `fuel`, the number of times the loop condition
may still be tested. On a ring `head :: es` of a well-formed heap each loop is
compared with `es.foldlM body`, which runs the body once on each element in
`next` order: with more fuel than elements the loop is that fold, with less it
runs out (`listForEachLoop_run`, `listForEachSafeLoop_run`).

`list_for_each` reads `struc->name.next` after the body, so it needs a body
that leaves the `next` links of the ring alone. `list_for_each_safe` reads the
next element into its spare iterator before the body runs; a body that ends
with `list_del` of the current node (`delBody`) then only unlinks a node the
loop has already left, and the ring afterwards holds the elements the body
kept, in their order (`foldlM_delBody`).
-/

namespace Mcube

section Code

variable {σ : Type} (head : ℕ) (body : ListHeap × σ → ℕ → Option (ListHeap × σ))

/-- The loop of `list_for_each`, on the iterator `struc`: run the body while
`struc` is not back on the head, then step to `struc->name.next` as the body
left it. -/
def listForEachLoop : ℕ → ℕ → ListHeap × σ → Option (ListHeap × σ)
  | 0, _, _ => none
  | fuel + 1, struc, p =>
    if struc ≠ head then (body p struc).bind fun p => listForEachLoop fuel (p.1.next struc) p
    else some p

/-- `list_for_each(node, struc, name) body`: the iterator starts on
`node->next`. -/
def listForEach (fuel : ℕ) (p : ListHeap × σ) : Option (ListHeap × σ) :=
  listForEachLoop head body fuel (p.1.next head) p

/-- The loop of `list_for_each_safe`, on the iterator `struc` and the spare
`spare_struc` read before the body: run the body while `struc` is not back on
the head, then move to the spare and read the next spare. -/
def listForEachSafeLoop : ℕ → ℕ → ℕ → ListHeap × σ → Option (ListHeap × σ)
  | 0, _, _, _ => none
  | fuel + 1, struc, spare, p =>
    if struc ≠ head then
      (body p struc).bind fun p => listForEachSafeLoop fuel spare (p.1.next spare) p
    else some p

/-- `list_for_each_safe(node, struc, spare_struc, name) body`: the iterator
starts on `node->next` and the spare on the node after it. -/
def listForEachSafe (fuel : ℕ) (p : ListHeap × σ) : Option (ListHeap × σ) :=
  listForEachSafeLoop head body fuel (p.1.next head) (p.1.next (p.1.next head)) p

end Code

section Bodies

variable {σ : Type} (f : ListHeap → σ → ℕ → Bool × σ)

/-- **A body that may delete the current node**: the caller's code `f` reads
the heap and the rest of memory, updates the latter, and says whether it ends
with `list_del(&struc->name)`. -/
def delBody (p : ListHeap × σ) (e : ℕ) : Option (ListHeap × σ) :=
  if (f p.1 p.2 e).1 then (listDel p.1 e).map fun hp => (hp, (f p.1 p.2 e).2)
  else some (p.1, (f p.1 p.2 e).2)

/-- The elements that a run of `delBody f` over `es` keeps, in order. -/
def keptBy : List ℕ → ListHeap × σ → List ℕ
  | [], _ => []
  | e :: es, p =>
    match delBody f p e with
    | none => []
    | some p' => if (f p.1 p.2 e).1 then keptBy es p' else e :: keptBy es p'

end Bodies

variable {σ : Type} {head : ℕ} {hp : ListHeap} {p : ListHeap × σ} {fuel : ℕ}
  {rs₁ rs₂ : List (List ℕ)} {K L : List ℕ}

/-! ## `list_for_each` -/

section ForEach

variable {body : ListHeap × σ → ℕ → Option (ListHeap × σ)} {R : List ℕ}

/-- A body that never fails runs to the end of any list. -/
theorem foldlM_isSome (hb : ∀ p e, ∃ p', body p e = some p') :
    ∀ (L : List ℕ) p, ∃ p', L.foldlM body p = some p'
  | [], p => ⟨p, rfl⟩
  | e :: L, p => by
    obtain ⟨p', hp'⟩ := hb p e
    simpa [hp'] using foldlM_isSome hb L p'

/-- **The run of `list_for_each`**: from the node `x` before the iterator,
with `L` the nodes left before the head, and a body that keeps the `next`
links of the nodes `R` of the walk, the loop is the fold of the body over `L`
once it has the fuel for it. -/
theorem listForEachLoop_run (hb : ∀ p e, ∃ p', body p e = some p' ∧ ∀ y ∈ R, p'.1.next y = p.1.next y) :
    ∀ {L x p fuel}, Walk hp.next x L head → head ∉ L → x :: L ⊆ R →
      (∀ y ∈ R, p.1.next y = hp.next y) →
      listForEachLoop head body fuel (hp.next x) p = if L.length < fuel then L.foldlM body p else none
  | [], x, p, fuel, hw, _, _, _ => by
    rw [walk_nil.1 hw]
    cases fuel <;> simp [listForEachLoop]
  | e :: L, x, p, fuel, hw, hh, hR, hp₀ => by
    obtain ⟨p', hb', hR'⟩ := hb p e
    have he : e ≠ head := fun h => hh (h ▸ List.mem_cons_self _ _)
    rw [hw.1]
    cases fuel with
    | zero => simp [listForEachLoop]
    | succ fuel =>
      have hep := hR (List.mem_cons_of_mem _ (List.mem_cons_self _ _))
      simp only [listForEachLoop, if_pos he, hb', Option.some_bind]
      rw [hR' e hep, hp₀ e hep, listForEachLoop_run hb hw.2 (fun h => hh (List.mem_cons_of_mem _ h))
        (fun y hy => hR (List.mem_cons_of_mem _ hy)) fun y hy => (hR' y hy).trans (hp₀ y hy)]
      simp [hb']

end ForEach

/-! ## `list_for_each_safe` -/

section ForEachSafe

variable {f : ListHeap → σ → ℕ → Bool × σ} {e : ℕ}

/-- **One run of a deleting body** on the element `e` of the ring of `head`:
it does not fail, and either takes `e` out of the ring, leaving it alone, or
changes no link. -/
theorem delBody_step (f : ListHeap → σ → ℕ → Bool × σ)
    (h : WellFormed p.1 (rs₁ ++ (head :: (K ++ e :: L)) :: rs₂)) :
    ∃ p', delBody f p e = some p' ∧
      if (f p.1 p.2 e).1 then WellFormed p'.1 (rs₁ ++ (head :: (K ++ L)) :: (rs₂ ++ [[e]]))
      else WellFormed p'.1 (rs₁ ++ (head :: (K ++ e :: L)) :: rs₂) := by
  by_cases hd : (f p.1 p.2 e).1
  · have h' : WellFormed p.1 (rs₁ ++ (e :: (L ++ head :: K)) :: rs₂) :=
      WellFormed.rotate.1 (by simpa using h)
    obtain ⟨hp', hdel, hw, -, -⟩ := h'.listDel
    refine ⟨(hp', (f p.1 p.2 e).2), by simp [delBody, hd, hdel], ?_⟩
    rw [if_pos hd]
    exact (WellFormed.rotate.1 hw).perm
      (List.Perm.append_left rs₁ ((List.perm_append_singleton _ _).symm.cons _))
  · exact ⟨(p.1, (f p.1 p.2 e).2), by simp [delBody, hd], by rwa [if_neg hd]⟩

/-- **The run of a deleting body over the rest of the ring**: it does not
fail, the kept elements stay on the ring in their order, and each deleted
one is left a ring of its own. -/
theorem foldlM_delBody (h : WellFormed p.1 (rs₁ ++ (head :: (K ++ L)) :: rs₂)) :
    ∃ p' D, L.foldlM (delBody f) p = some p' ∧ (keptBy f L p ++ D).Perm L ∧
      WellFormed p'.1 (rs₁ ++ (head :: (K ++ keptBy f L p)) :: (rs₂ ++ D.map fun e => [e])) := by
  induction L generalizing K rs₂ p with
  | nil => exact ⟨p, [], rfl, by simp [keptBy], by simpa [keptBy] using h⟩
  | cons e L ih =>
    obtain ⟨p', hs, hw⟩ := delBody_step f h
    by_cases hd : (f p.1 p.2 e).1
    · rw [if_pos hd] at hw
      obtain ⟨p'', D, hf, hperm, hw'⟩ := ih hw
      refine ⟨p'', e :: D, by simpa [hs] using hf, ?_, ?_⟩
      · simpa [keptBy, hs, hd] using List.perm_middle.trans (hperm.cons e)
      · simpa [keptBy, hs, hd] using hw'
    · rw [if_neg hd] at hw
      obtain ⟨p'', D, hf, hperm, hw'⟩ :=
        ih (show WellFormed p'.1 (rs₁ ++ (head :: ((K ++ [e]) ++ L)) :: rs₂) by simpa using hw)
      refine ⟨p'', D, by simpa [hs] using hf, ?_, ?_⟩
      · simpa [keptBy, hs, hd] using hperm
      · simpa [keptBy, hs, hd] using hw'

/-- **The run of `list_for_each_safe`** with a deleting body, from the
iterator on the first of the nodes `L` left before the head and the spare on
the node after it: once it has the fuel for it, the loop is the fold of the
body over `L`. -/
theorem listForEachSafeLoop_run (h : WellFormed p.1 (rs₁ ++ (head :: (K ++ L)) :: rs₂)) :
    listForEachSafeLoop head (delBody f) fuel (L.headD head) (p.1.next (L.headD head)) p =
      if L.length < fuel then L.foldlM (delBody f) p else none := by
  induction L generalizing K rs₂ p fuel with
  | nil => cases fuel <;> simp [listForEachSafeLoop]
  | cons e L ih =>
    cases fuel with
    | zero => simp [listForEachSafeLoop]
    | succ fuel =>
      obtain ⟨hr, hnd, -, -⟩ := h.split
      have he : e ≠ head := fun h => (List.nodup_cons.1 hnd).1 (h ▸ by simp)
      have hnext : p.1.next e = L.headD head :=
        (chain_append_cons.1 (show Chain _ _ head (K ++ e :: L) head from hr)).2.next_eq_headD
      obtain ⟨p', hs, hw⟩ := delBody_step f h
      have hw' : ∃ K' rs₂', WellFormed p'.1 (rs₁ ++ (head :: (K' ++ L)) :: rs₂') := by
        split_ifs at hw
        exacts [⟨K, _, hw⟩, ⟨K ++ [e], rs₂, by simpa using hw⟩]
      obtain ⟨K', rs₂', hw'⟩ := hw'
      simp only [listForEachSafeLoop, List.headD_cons, if_pos he, hs, Option.some_bind, hnext]
      rw [ih hw']
      simp [hs]

end ForEachSafe

/-! ## The two loops on a ring -/

section RingLoops

variable (hp : ListHeap) (head : ℕ) (es : List ℕ) (rs₁ rs₂ : List (List ℕ)) (st : σ)

/-- **What the two loops do on the ring `head :: es`**, started on the heap
`hp` and the rest of memory `st`. `list_for_each`, with a body that never
fails and leaves the `next` links of the ring alone, is the fold of the body
over `es` once it may test its condition more than `es.length` times, and
runs out with fewer. `list_for_each_safe`, with a body that may delete the
current node, is likewise the fold of the body over `es`; that fold does not
fail and leaves the ring holding the elements kept, in their order, each
deleted one a ring of its own. -/
def RingLoops : Prop :=
  (∀ body : ListHeap × σ → ℕ → Option (ListHeap × σ),
    (∀ p e, ∃ p', body p e = some p' ∧ ∀ y ∈ head :: es, p'.1.next y = p.1.next y) →
    (∃ p', es.foldlM body (hp, st) = some p') ∧
    ∀ fuel, listForEach head body fuel (hp, st) =
      if es.length < fuel then es.foldlM body (hp, st) else none) ∧
  (∀ f : ListHeap → σ → ℕ → Bool × σ,
    (∀ fuel, listForEachSafe head (delBody f) fuel (hp, st) =
      if es.length < fuel then es.foldlM (delBody f) (hp, st) else none) ∧
    ∃ p' D, es.foldlM (delBody f) (hp, st) = some p' ∧ (keptBy f es (hp, st) ++ D).Perm es ∧
      WellFormed p'.1 (rs₁ ++ (head :: keptBy f es (hp, st)) :: (rs₂ ++ D.map fun e => [e])))

end RingLoops

/-- **Both loops visit the ring once, in order, and stop.** -/
theorem listForEach_visits_in_order {es : List ℕ} (hw : WellFormed hp (rs₁ ++ (head :: es) :: rs₂))
    (st : σ) : RingLoops hp head es rs₁ rs₂ st := by
  obtain ⟨hr, hnd, -, -⟩ := hw.split
  have hw₀ : WellFormed (hp, st).1 (rs₁ ++ (head :: ([] ++ es)) :: rs₂) := hw
  refine ⟨fun body hb => ⟨foldlM_isSome (fun p e => (hb p e).imp fun _ h => h.1) es _, fun fuel =>
    listForEachLoop_run hb hr.walk (List.nodup_cons.1 hnd).1 (List.Subset.refl _) fun _ _ => rfl⟩,
    fun f => ⟨fun fuel => ?_, ?_⟩⟩
  · show listForEachSafeLoop head (delBody f) fuel (hp.next head) (hp.next (hp.next head)) (hp, st) = _
    rw [Chain.next_eq_headD hr]
    exact listForEachSafeLoop_run hw₀
  · simpa using foldlM_delBody hw₀

theorem listForEach_visits_in_order_three :
    let hp : ListHeap := ⟨fun a =>
      if a = 1 then ⟨2, 3⟩ else if a = 2 then ⟨3, 1⟩ else if a = 3 then ⟨1, 2⟩ else ⟨0, 0⟩⟩
    WellFormed hp ([] ++ [1, 2, 3] :: []) ∧ RingLoops hp 1 [2, 3] [] [] () := by
  intro hp
  have hw : WellFormed hp ([] ++ [1, 2, 3] :: []) := ⟨by decide, by decide, by decide⟩
  exact ⟨hw, listForEach_visits_in_order hw ()⟩

end Mcube
