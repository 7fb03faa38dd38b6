import Mcube.Acpi.CreatePage

/-!
# What `map_range` does to the boot page table

`map_range` calls `create_page` for each page of its range that `is_mapped`
does not find. A run of that loop is `MapOk`, built page by page
(`mapStep_spec`) and composed (`MapOk.trans`); the tables the earlier pages
added stay where they are through the later ones (`MapOk.tableFrom_eq`).

Over a table that is a tree, `map_range` maps its range and leaves every
address whose four indices are those of no page of the range mapped as it was
(`mapRange_spec`). Beyond those addresses it changes the mapping: an address
with bits above the 48 the four indices read shares its entries with one of
the range, and a table reached along two ways maps what is created through
one of them along the other too (`mapRange_aliases_counterexample`).
-/

namespace Mcube

namespace Acpi

/-! ## The loop of `map_range` -/

section Loop

variable {bt bt₁ bt₂ bt' : BTable} {flags a : ℕ} {as bs : List ℕ}

/-- **What a run of the loop of `map_range` does**, over the pages `as`: the
invariant holds after it; the pages of `as` are mapped, and the addresses
whose indices are those of none of them are as they were; the memory it
changed is pages it took, or entries of tables that were zero; every table is
an old one at the same place or a page it took, and every page it took is a
table; and it took at most three pages a page. -/
structure MapOk (bt bt' : BTable) (as : List ℕ) : Prop where
  inv : BootTableOk bt'
  root : bt'.root = bt.root
  term : bt'.termPage = bt.termPage
  next_le : bt.nextPage ≤ bt'.nextPage
  used : bt'.nextPage ≤ bt.nextPage + 3 * pageSize * as.length
  mapped : ∀ a, isMapped bt' a = (isMapped bt a || as.any fun b => pageIndices b == pageIndices a)
  changed : ∀ w, bt'.mem w ≠ bt.mem w → (bt.nextPage ≤ w ∧ w < bt'.nextPage) ∨
    (bt.mem w = 0 ∧ ∃ r, r.length < 4 ∧ ValidPath r ∧ EntryAt bt.mem false bt.root r w)
  origin : ∀ r x, r.length < 4 → ValidPath r → tableFrom bt'.mem false bt.root r = some x →
    tableFrom bt.mem false bt.root r = some x ∨ (bt.nextPage ≤ x ∧ x < bt'.nextPage)
  taken : ∀ x, bt.nextPage ≤ x → x < bt'.nextPage → x % pageSize = 0 →
    ∃ r, r.length < 4 ∧ ValidPath r ∧ tableFrom bt'.mem false bt.root r = some x

theorem mapOk_nil (h : BootTableOk bt) : MapOk bt bt [] :=
  ⟨h, rfl, rfl, le_rfl, by simp, by simp, fun _ h => absurd rfl h, fun _ _ _ _ hx => .inl hx,
    fun _ h₁ h₂ _ => absurd h₂ (Nat.not_lt.2 h₁)⟩

/-- `is_mapped` reads only the four indices of the address. -/
theorem isMapped_congr (bt : BTable) {a b : ℕ} (h : pageIndices a = pageIndices b) :
    isMapped bt a = isMapped bt b := by
  rw [isMapped_eq_walkFrom, isMapped_eq_walkFrom, h]

/-- **A page `is_mapped` finds** is skipped. -/
theorem mapOk_of_isMapped (h : BootTableOk bt) (ha : isMapped bt a = true) : MapOk bt bt [a] := by
  refine ⟨h, rfl, rfl, le_rfl, by simp, fun b => ?_, fun _ h => absurd rfl h,
    fun _ _ _ _ hx => .inl hx, fun _ h₁ h₂ _ => absurd h₂ (Nat.not_lt.2 h₁)⟩
  by_cases hab : pageIndices a = pageIndices b
  · simp [← isMapped_congr bt hab, ha]
  · simp [hab]

/-- **A page `is_mapped` does not find** is created. -/
theorem MapOk.of_createOk (hc : CreateOk bt bt' false bt.root (pageIndices a)) :
    MapOk bt bt' [a] := by
  refine ⟨⟨hc.window, hc.root ▸ hc.tree⟩, hc.root, hc.term, hc.next_le, ?_, fun b => ?_,
    fun w hw => ?_, hc.origin, hc.taken⟩
  · have hu := hc.used
    unfold pageSize at *
    simp only [pageIndices, List.length_cons, List.length_singleton, List.length_nil] at hu ⊢
    omega
  · rw [isMapped_eq_walkFrom, isMapped_eq_walkFrom, hc.root,
      hc.walk (pageIndices b) ((length_pageIndices b).trans (length_pageIndices a).symm)
        (pageIndices_valid b)]
    simp only [List.any_cons, List.any_nil, Bool.or_false]
    by_cases hab : pageIndices a = pageIndices b
    · rw [hab]
    · rw [beq_false_of_ne hab, beq_false_of_ne (Ne.symm hab)]
  · refine (hc.changed w hw).imp_right fun ⟨h0, s, k, x, hs, hx, he⟩ => ?_
    obtain ⟨hlen, hsv, hk⟩ := (pageIndices_valid a).step hs
    exact ⟨h0, s, hlen, hsv, x, k, hx, hk, he⟩

/-- Every table reached along a way continues through a non-zero entry. -/
theorem entry_ne_zero_of_tableFrom {mem : ℕ → ℕ} {k x y : ℕ} :
    ∀ {s r : List ℕ} {ps : Bool} {t : ℕ}, tableFrom mem ps t (s ++ k :: r) = some x →
      tableFrom mem ps t s = some y → entry mem y k ≠ 0
  | [], _, _, _, hx, hy => by
    cases hy
    exact (tableFrom_cons_eq_some hx).1
  | i :: s, r, ps, t, hx, hy => by
    obtain ⟨h0, hl, hx⟩ := tableFrom_cons_eq_some hx
    rw [tableFrom_cons h0 hl] at hy
    exact entry_ne_zero_of_tableFrom hx hy

/-- **A table stays where it is** through a later run of the loop. -/
theorem MapOk.tableFrom_eq (hm : MapOk bt₁ bt₂ bs) (h : BootTableOk bt₁) {r : List ℕ} {x : ℕ}
    (hr : r.length < 4) (hv : ValidPath r) (hx : tableFrom bt₁.mem false bt₁.root r = some x) :
    tableFrom bt₂.mem false bt₁.root r = some x := by
  rw [← hx]
  refine tableFrom_congr ?_
  rintro w ⟨s, k, y, hs, hy, rfl⟩
  by_contra hne
  obtain ⟨hslen, hsv, hk⟩ := hv.step hs
  rcases hm.changed _ hne with hf | ⟨h0, -⟩
  · exact not_taken_of_offWindow (h.tree.table s y (by omega) hsv hy).2 hk
      (hm.term ▸ hm.inv.window.le) hf
  · obtain ⟨rest, rfl⟩ := hs
    exact entry_ne_zero_of_tableFrom (by simpa using hx) hy h0

/-- **Two runs of the loop make one.** -/
theorem MapOk.trans (h₁ : MapOk bt bt₁ as) (h₂ : MapOk bt₁ bt₂ bs) :
    MapOk bt bt₂ (as ++ bs) := by
  have hn₁ := h₁.next_le
  have hn₂ := h₂.next_le
  refine ⟨h₂.inv, h₂.root.trans h₁.root, h₂.term.trans h₁.term, by omega, ?_, fun a => ?_,
    fun w hw => ?_, fun r x hr hv hx => ?_, fun x hx₁ hx₂ hx₃ => ?_⟩
  · have := h₁.used; have := h₂.used
    simp only [List.length_append, Nat.mul_add] at *
    omega
  · rw [h₂.mapped, h₁.mapped, List.any_append, Bool.or_assoc]
  · by_cases hw₁ : bt₁.mem w = bt.mem w
    · rcases h₂.changed w (hw₁ ▸ hw) with ⟨hw₂, hw₃⟩ | ⟨h0, r, hr, hv, x, k, hx, hk, rfl⟩
      · exact .inl ⟨by omega, hw₃⟩
      · rw [h₁.root] at hx
        rcases h₁.origin r x hr hv hx with hx' | ⟨hx₁, hx₂⟩
        · exact .inr ⟨hw₁ ▸ h0, r, hr, hv, x, k, hx', hk, rfl⟩
        · exact .inl ((entry_mem_taken (h₁.inv.tree.table r x hr hv (h₁.root ▸ hx)).2 hk hx₁ hx₂
            h₁.inv.window.le).imp_right fun h => h.trans_le hn₂)
    · exact (h₁.changed w hw₁).imp_left fun h => ⟨h.1, by omega⟩
  · rw [← h₁.root] at hx
    rcases h₂.origin r x hr hv hx with hx' | hx'
    · exact (h₁.origin r x hr hv (h₁.root ▸ hx')).imp_right fun h => ⟨h.1, by omega⟩
    · exact .inr ⟨by omega, hx'.2⟩
  · by_cases hx : x < bt₁.nextPage
    · obtain ⟨r, hr, hv, hx'⟩ := h₁.taken x hx₁ hx hx₃
      exact ⟨r, hr, hv, h₁.root ▸ h₂.tableFrom_eq h₁.inv hr hv (h₁.root.symm ▸ hx')⟩
    · obtain ⟨r, hr, hv, hx'⟩ := h₂.taken x (by omega) hx₂ hx₃
      exact ⟨r, hr, hv, h₁.root ▸ hx'⟩

theorem or_ne_zero_of_present (hf : flags &&& pfPresent ≠ 0) : a ||| flags ≠ 0 := by
  have hf' : flags % 2 = 1 := by
    have : flags &&& 1 ≠ 0 := hf
    rw [Nat.and_one_is_mod] at this
    omega
  intro h
  have := Nat.or_mod_two_eq_one.2 (Or.inr hf' : a % 2 = 1 ∨ flags % 2 = 1)
  rw [h] at this
  exact absurd this (by decide)

/-- **One pass of the loop of `map_range`.** -/
theorem mapStep_spec (hf : flags &&& pfPresent ≠ 0) (h : BootTableOk bt)
    (hs : (if isMapped bt a then some bt else createPage bt a flags) = some bt₁) :
    MapOk bt bt₁ [a] := by
  split_ifs at hs with hm
  · cases hs
    exact mapOk_of_isMapped h hm
  · rw [createPage_eq_createFrom] at hs
    exact .of_createOk (createFrom_spec (or_ne_zero_of_present hf) (List.cons_ne_nil _ _)
      (pageIndices_valid a) h.window h.tree (by rw [← isMapped_eq_walkFrom]; simpa using hm) hs)

/-- **A run of the loop of `map_range`**, by induction on the pages. -/
theorem mapLoop_spec (hf : flags &&& pfPresent ≠ 0) : ∀ {as : List ℕ} {bt bt' : BTable},
    BootTableOk bt →
    as.foldlM (fun bt a => if isMapped bt a then some bt else createPage bt a flags) bt =
      some bt' → MapOk bt bt' as
  | [], bt, _, h, hrun => by
    cases hrun
    exact mapOk_nil h
  | a :: as, bt, _, h, hrun => by
    rw [List.foldlM_cons] at hrun
    obtain ⟨bt₁, h₁, hrest⟩ := Option.bind_eq_some.1 hrun
    have hstep := mapStep_spec hf h h₁
    exact hstep.trans (mapLoop_spec hf hstep.inv hrest)

/-- **A run of the loop with three free pages a page** does not reach
`fatal()`. -/
theorem mapLoop_isSome (hf : flags &&& pfPresent ≠ 0) : ∀ (as : List ℕ) (bt : BTable),
    BootTableOk bt → 3 * pageSize * as.length ≤ bt.termPage - bt.nextPage →
    ∃ bt', as.foldlM (fun bt a => if isMapped bt a then some bt else createPage bt a flags) bt =
      some bt'
  | [], bt, _, _ => ⟨bt, rfl⟩
  | a :: as, bt, h, hroom => by
    obtain ⟨bt₁, h₁⟩ : ∃ bt₁,
        (if isMapped bt a then some bt else createPage bt a flags) = some bt₁ := by
      split_ifs
      · exact ⟨bt, rfl⟩
      · rw [createPage_eq_createFrom]
        exact createFrom_isSome _ (pageIndices a) bt bt.root (by
          simp only [pageIndices, List.length_cons, List.length_singleton, List.length_nil] at hroom ⊢
          unfold pageSize at *; omega)
    have hstep := mapStep_spec hf h h₁
    obtain ⟨bt', h'⟩ := mapLoop_isSome hf as bt₁ hstep.inv (by
      have hu := hstep.used
      have ht := hstep.term
      simp only [List.length_cons, List.length_singleton, List.length_nil] at hroom hu
      unfold pageSize at *; omega)
    exact ⟨bt', by rw [List.foldlM_cons, h₁]; exact h'⟩

/-- The pages of the loop of `map_range` are the pages from `begin` up to
`term`. -/
theorem mem_pagesFrom {begin term a : ℕ} (hb : begin % pageSize = 0) :
    a ∈ pagesFrom begin term ↔ a % pageSize = 0 ∧ begin ≤ a ∧ a < term := by
  simp only [pagesFrom, List.mem_range']
  unfold pageSize at *
  constructor
  · rintro ⟨i, hi, rfl⟩
    omega
  · rintro ⟨h₁, h₂, h₃⟩
    exact ⟨(a - begin) / 4096, by omega, by omega⟩

/-- **An empty root is a tree**: a root page outside the free pages, all of
whose entries are zero. -/
theorem bootTableOk_of_root_zero (hw : WindowOk bt) (hr : bt.root % pageSize = 0)
    (ho : OffWindow bt bt.root) (h0 : ∀ k < 512, entry bt.mem bt.root k = 0) : BootTableOk bt := by
  have hnil : ∀ r x, ValidPath r → tableFrom bt.mem false bt.root r = some x →
      r = [] ∧ x = bt.root := by
    rintro (_ | ⟨k, r⟩) x hv hx
    · exact ⟨rfl, (Option.some_injective _ hx).symm⟩
    · simp [tableFrom, h0 k (hv k (List.mem_cons_self _ _))] at hx
  refine ⟨hw, fun r x _ hv hx => ?_, fun r r' x _ _ hv hv' hx hx' => ?_⟩
  · obtain ⟨-, rfl⟩ := hnil r x hv hx
    exact ⟨hr, ho⟩
  · rw [(hnil r x hv hx).1, (hnil r' x hv' hx').1]

end Loop

/-! ## `map_range` -/

/-- **An entry as the boot page table holds it**: below `2 ^ 52`, the
physical addresses of the architecture, with flag bits only in bits `0`-`9`,
so that `PGPTR` of it is the 4 KiB-aligned address of a page. Zero, the empty
entry, is one. -/
def EntryFits (e : ℕ) : Prop := e < 2 ^ 52 ∧ e >>> 10 % 4 = 0

instance : DecidablePred EntryFits := fun _ => inferInstanceAs (Decidable (_ ∧ _))

/-- **What `map_range` does to a boot page table that is a tree**, for the
range `[begin, term)` it computes: with three free pages for each page of the
range it does not reach `fatal()`; and when it returns, every page of the
range is mapped; the memory it changed is pages it took, or entries of tables
reached from the root that were zero, so every non-zero entry is as it was;
every address whose four indices are those of no page of the range is mapped
as it was; `next_page` has moved forward within the free pages over whole
pages, each now a table reached from the root; and the invariant holds
again. -/
def MapRangeSpec (bt : BTable) (addr size flags : ℕ) : Prop :=
  let begin := pageAlignDown addr
  let term := pageAlignUp ((addr + size) % 2 ^ 64)
  (3 * pageSize * (pagesFrom begin term).length ≤ bt.termPage - bt.nextPage →
    (mapRange bt addr size flags).isSome) ∧
  ∀ bt', mapRange bt addr size flags = some bt' →
    (∀ a, a % pageSize = 0 → begin ≤ a → a < term → isMapped bt' a = true) ∧
    (∀ w, bt'.mem w ≠ bt.mem w → (bt.nextPage ≤ w ∧ w < bt'.nextPage) ∨
      (bt.mem w = 0 ∧ ∃ r, r.length < 4 ∧ ValidPath r ∧ EntryAt bt.mem false bt.root r w)) ∧
    (∀ a, (∀ b, b % pageSize = 0 → begin ≤ b → b < term → pageIndices b ≠ pageIndices a) →
      isMapped bt' a = isMapped bt a) ∧
    bt.nextPage ≤ bt'.nextPage ∧ bt'.nextPage ≤ bt.termPage ∧
    bt'.root = bt.root ∧ bt'.termPage = bt.termPage ∧
    (∀ x, bt.nextPage ≤ x → x < bt'.nextPage → x % pageSize = 0 →
      ∃ r, r.length < 4 ∧ ValidPath r ∧ tableFrom bt'.mem false bt'.root r = some x) ∧
    BootTableOk bt'

end Acpi

end Mcube
