import Mcube.Acpi.BootTable

/-!
# What `create_page` does to the boot page table

`create_page` trusts the table it is given: it follows every non-zero entry
on the way to the address. What it then does is only as good as the table.
The invariant is `BootTableOk`: the pages still free for tables are whole
pages, and the tables reached from the root are 4 KiB pages outside them, no
two ways reaching the same one (`TreeOk`).

One level of the walk is `AllocOk`: the entry is left alone when it points to
a table, or pointed to a page taken from the free ones and zeroed
(`allocEntry_spec`). `createFrom_spec` assembles the levels by induction
along the indices (`CreateOk.lift`): a walk of `create_page` for an address
that `is_mapped` does not find maps it and no other address of other indices
(`CreateOk.walk`), writes only entries it read that were zero and the pages it
took (`CreateOk.changed`), keeps the tables a tree, and makes each page it took
a table (`CreateOk.taken`).
-/

namespace Mcube

namespace Acpi

open Function

/-! ## The invariant -/

/-- **`w` is an entry of the table reached through `r`.** -/
def EntryAt (mem : ℕ → ℕ) (ps : Bool) (t : ℕ) (r : List ℕ) (w : ℕ) : Prop :=
  ∃ x k, tableFrom mem ps t r = some x ∧ k < 512 ∧ w = x + 8 * k

/-- **The page at `x` lies outside the pages still free for tables.** -/
def OffWindow (bt : BTable) (x : ℕ) : Prop := x + pageSize ≤ bt.nextPage ∨ bt.termPage ≤ x

/-- **The pages set aside for tables** are whole pages. -/
structure WindowOk (bt : BTable) : Prop where
  next : bt.nextPage % pageSize = 0
  term : bt.termPage % pageSize = 0
  le : bt.nextPage ≤ bt.termPage

/-- **The tables below `t` form a tree outside the free pages**: every table
reached through fewer than `n` indices is a page outside them, and no two
ways reach the same table. -/
structure TreeOk (bt : BTable) (ps : Bool) (t n : ℕ) : Prop where
  table : ∀ r x, r.length < n → ValidPath r → tableFrom bt.mem ps t r = some x →
    x % pageSize = 0 ∧ OffWindow bt x
  inj : ∀ r r' x, r.length < n → r'.length < n → ValidPath r → ValidPath r' →
    tableFrom bt.mem ps t r = some x → tableFrom bt.mem ps t r' = some x → r = r'

/-- **The invariant of the boot page table**: the free pages are whole pages,
and the tables reached from the root form a tree outside them. -/
structure BootTableOk (bt : BTable) : Prop where
  window : WindowOk bt
  tree : TreeOk bt false bt.root 4

/-! ## Arithmetic of pages and entries -/

section Arith

/-- Entries of two page-aligned tables coincide only as the same entry of the
same table. -/
theorem entry_addr_inj {x x' k k' : ℕ} (hx : x % pageSize = 0) (hx' : x' % pageSize = 0)
    (hk : k < 512) (hk' : k' < 512) (h : x + 8 * k = x' + 8 * k') : x = x' ∧ k = k' := by
  unfold pageSize at hx hx'
  omega

/-- An entry of a table outside the free pages is not in one of the pages
taken from them. -/
theorem not_taken_of_offWindow {bt : BTable} {x k n : ℕ} (hx : OffWindow bt x) (hk : k < 512)
    (hn : n ≤ bt.termPage) : ¬(bt.nextPage ≤ x + 8 * k ∧ x + 8 * k < n) := by
  unfold OffWindow pageSize at hx
  omega

/-- An entry of a page taken is in the pages taken. -/
theorem entry_mem_taken {bt : BTable} {x k n : ℕ} (hx : OffWindow bt x) (hk : k < 512)
    (hn : n ≤ x) (hxn : x < bt.nextPage) (hle : bt.nextPage ≤ bt.termPage) :
    n ≤ x + 8 * k ∧ x + 8 * k < bt.nextPage := by
  unfold OffWindow pageSize at hx
  omega

theorem or_present_rw {n : ℕ} (hn : n % pageSize = 0) : n ||| pfPresent ||| pfRw = n + 3 := by
  have h := Nat.mul_add_lt_is_or (show 3 < 2 ^ 12 by decide) (n / 4096)
  rw [Nat.or_assoc, show pfPresent ||| pfRw = 3 from rfl]
  unfold pageSize at hn
  rw [show n = 2 ^ 12 * (n / 4096) by omega, ← h]

theorem pgptr_add_three {n : ℕ} (hn : n % pageSize = 0) : pgptr (n + 3) = n := by
  unfold pageSize at hn
  rw [pgptr_eq]
  omega

theorem isLarge_add_three {n : ℕ} (hn : n % pageSize = 0) : isLarge (n + 3) = false := by
  unfold pageSize at hn
  rw [isLarge_eq, decide_eq_false_iff_not]
  omega

end Arith

/-! ## One step of `create_page` -/

section Alloc

variable {bt bt₁ : BTable} {ps : Bool} {t i m : ℕ}

/-- **What `if (t->entry[i] == 0) t->entry[i] = alloc_page(btable)` does**,
seen from the table at `t`: entry `i` now points to a table, which is the old
one, or a page just taken and zeroed. -/
structure AllocOk (bt bt₁ : BTable) (ps : Bool) (t i m : ℕ) : Prop where
  window : WindowOk bt₁
  root : bt₁.root = bt.root
  term : bt₁.termPage = bt.termPage
  next_le : bt.nextPage ≤ bt₁.nextPage
  used : bt₁.nextPage ≤ bt.nextPage + pageSize
  link : entry bt₁.mem t i ≠ 0 ∧ (ps && isLarge (entry bt₁.mem t i)) = false
  tree : TreeOk bt₁ true (pgptr (entry bt₁.mem t i)) m
  changed : ∀ w, bt₁.mem w ≠ bt.mem w →
    (bt.nextPage ≤ w ∧ w < bt₁.nextPage) ∨ (w = t + 8 * i ∧ bt.mem w = 0)
  walk : ∀ r, r ≠ [] → ValidPath r →
    walkFrom bt₁.mem true (pgptr (entry bt₁.mem t i)) r = walkFrom bt.mem ps t (i :: r)
  table : ∀ r x, ValidPath r → tableFrom bt₁.mem true (pgptr (entry bt₁.mem t i)) r = some x →
    tableFrom bt.mem ps t (i :: r) = some x ∨ (bt.nextPage ≤ x ∧ x < bt₁.nextPage)
  taken : ∀ x, bt.nextPage ≤ x → x < bt₁.nextPage → x % pageSize = 0 →
    x = pgptr (entry bt₁.mem t i)

/-- The subtree of a table entry points to is a tree. -/
theorem TreeOk.child (h : TreeOk bt ps t (m + 1)) (h0 : entry bt.mem t i ≠ 0)
    (hl : (ps && isLarge (entry bt.mem t i)) = false) (hi : i < 512) :
    TreeOk bt true (pgptr (entry bt.mem t i)) m := by
  refine ⟨fun r x hr hv' hx => h.table (i :: r) x (by simpa using hr) (hv'.cons hi) ?_,
    fun r r' x hr hr' hv₁ hv₂ hx hx' => ?_⟩
  · rwa [tableFrom_cons h0 hl]
  · have := h.inj (i :: r) (i :: r') x (by simpa using hr) (by simpa using hr') (hv₁.cons hi)
      (hv₂.cons hi) (by rwa [tableFrom_cons h0 hl]) (by rwa [tableFrom_cons h0 hl])
    exact List.cons_injective this

theorem TreeOk.root (h : TreeOk bt ps t (m + 1)) : t % pageSize = 0 ∧ OffWindow bt t :=
  h.table [] t (Nat.succ_pos _) (fun _ h => absurd h (List.not_mem_nil _)) rfl

/-- **An entry that already points to a table** is left alone. -/
theorem allocOk_of_ne_zero (hw : WindowOk bt) (ht : TreeOk bt ps t (m + 1)) (hi : i < 512)
    (h0 : entry bt.mem t i ≠ 0) (hl : (ps && isLarge (entry bt.mem t i)) = false) :
    AllocOk bt bt ps t i m where
  window := hw
  root := rfl
  term := rfl
  next_le := le_rfl
  used := Nat.le_add_right _ _
  link := ⟨h0, hl⟩
  tree := ht.child h0 hl hi
  changed _ h := absurd rfl h
  walk r hr _ := by
    obtain ⟨j, p, rfl⟩ := List.exists_cons_of_ne_nil hr
    simp [walkFrom, h0, hl]
  table r x _ hx := .inl (by rwa [tableFrom_cons h0 hl])
  taken _ h₁ h₂ _ := absurd h₂ (Nat.not_lt.2 h₁)

/-- The table after `t->entry[i] = alloc_page(btable)`. -/
def BTable.takePage (bt : BTable) (t i : ℕ) : BTable :=
  { bt with
    mem := update (memzero bt.mem bt.nextPage pageSize) (t + 8 * i)
      (bt.nextPage ||| pfPresent ||| pfRw)
    nextPage := bt.nextPage + pageSize }

@[simp] theorem BTable.takePage_root (bt : BTable) (t i : ℕ) : (bt.takePage t i).root = bt.root :=
  rfl

@[simp] theorem BTable.takePage_termPage (bt : BTable) (t i : ℕ) :
    (bt.takePage t i).termPage = bt.termPage := rfl

@[simp] theorem BTable.takePage_nextPage (bt : BTable) (t i : ℕ) :
    (bt.takePage t i).nextPage = bt.nextPage + pageSize := rfl

/-- **A zero entry is pointed to a page taken and zeroed.** -/
theorem allocOk_of_eq_zero (hw : WindowOk bt) (ht : TreeOk bt ps t (m + 1)) (hi : i < 512)
    (h0 : entry bt.mem t i = 0) (hne : bt.nextPage ≠ bt.termPage) :
    AllocOk bt (bt.takePage t i) ps t i m := by
  obtain ⟨hta, hto⟩ := ht.root
  have hn := hw.next
  have hnt : bt.nextPage + pageSize ≤ bt.termPage := by
    have := hw.term; have := hw.le; unfold pageSize at *; omega
  have hto' : t + pageSize ≤ bt.nextPage ∨ bt.termPage ≤ t := hto
  have hlink : entry (bt.takePage t i).mem t i = bt.nextPage + 3 := by
    simp only [entry, BTable.takePage, update_same, or_present_rw hn]
  have hptr : pgptr (entry (bt.takePage t i).mem t i) = bt.nextPage := by
    rw [hlink, pgptr_add_three hn]
  have hzero : ∀ k < 512, entry (bt.takePage t i).mem bt.nextPage k = 0 := fun k hk => by
    unfold pageSize at hto' hnt
    simp only [entry, BTable.takePage]
    rw [update_noteq (by omega), memzero, if_pos (by unfold pageSize; omega)]
  have htab : ∀ r x, ValidPath r → tableFrom (bt.takePage t i).mem true bt.nextPage r = some x →
      r = [] ∧ x = bt.nextPage := by
    rintro (_ | ⟨k, r⟩) x hv hx
    · exact ⟨rfl, (Option.some_injective _ hx).symm⟩
    · simp [tableFrom, hzero k hv.head] at hx
  refine ⟨⟨by simp only [BTable.takePage_nextPage]; unfold pageSize at *; omega, hw.term,
      by simpa using hnt⟩, rfl, rfl, by simp, le_rfl,
    ⟨by omega, by rw [hlink, isLarge_add_three hn, Bool.and_false]⟩, ⟨?_, ?_⟩, ?_, ?_, ?_, ?_⟩
  · intro r x _ hv hx
    rw [hptr] at hx
    obtain ⟨-, rfl⟩ := htab r x hv hx
    exact ⟨hn, .inl (by simp)⟩
  · intro r r' x _ _ hv hv' hx hx'
    rw [hptr] at hx hx'
    rw [(htab r x hv hx).1, (htab r' x hv' hx').1]
  · intro w hw'
    simp only [BTable.takePage, Function.update, memzero] at hw'
    split_ifs at hw' with h₁ h₂
    · exact .inr ⟨h₁, h₁ ▸ h0⟩
    · exact .inl ⟨h₂.1, h₂.2⟩
    · exact absurd rfl hw'
  · rintro (_ | ⟨k, r⟩) hr hv
    · exact absurd rfl hr
    · rw [hptr]
      cases r <;> simp [walkFrom, h0, hzero k hv.head]
  · intro r x hv hx
    rw [hptr] at hx
    obtain ⟨-, rfl⟩ := htab r x hv hx
    exact .inr ⟨le_rfl, by simp [pageSize]⟩
  · intro x h₁ h₂ h₃
    rw [hptr]
    simp only [BTable.takePage_nextPage] at h₂
    unfold pageSize at *
    omega

/-- **What `allocEntry` does**, when the walk from `t` through `i` was not
already mapped by a large page. -/
theorem allocEntry_spec (hw : WindowOk bt) (ht : TreeOk bt ps t (m + 1)) (hi : i < 512)
    (hl : entry bt.mem t i ≠ 0 → (ps && isLarge (entry bt.mem t i)) = false)
    (h : allocEntry bt t i = some bt₁) : AllocOk bt bt₁ ps t i m := by
  unfold allocEntry allocPage at h
  split_ifs at h with h0 hne
  · cases h
  · cases h
    exact allocOk_of_eq_zero hw ht hi h0 hne
  · cases h
    exact allocOk_of_ne_zero hw ht hi h0 (hl h0)

/-- **What a walk below the entry reads**, the walk through the entry read
too, or it lies in the page just taken. -/
theorem AllocOk.reads {c : List ℕ} {w : ℕ} (ha : AllocOk bt bt₁ ps t i m) (hc : ValidPath c)
    (hm : c.length ≤ m) (hw : Reads bt₁.mem true (pgptr (entry bt₁.mem t i)) c w) :
    Reads bt.mem ps t (i :: c) w ∨ (bt.nextPage ≤ w ∧ w < bt₁.nextPage) := by
  obtain ⟨s, k, x, hs, hx, rfl⟩ := hw
  obtain ⟨hlen, hsv, hk⟩ := hc.step hs
  rcases ha.table s x hsv hx with hx' | ⟨h₁, h₂⟩
  · exact .inl ⟨i :: s, k, x, List.cons_prefix_cons.2 ⟨rfl, hs⟩, hx', rfl⟩
  · exact .inr (entry_mem_taken (ha.tree.table s x (by omega) hsv hx).2 hk h₁ h₂ ha.window.le)

end Alloc

/-! ## One walk of `create_page` -/

section Create

variable {bt bt₁ bt' : BTable} {ps : Bool} {t v i j : ℕ} {p c : List ℕ}

/-- **What one walk of `create_page` does**, seen from the table at `t`, for
the indices `c`: the free pages stay whole pages and the tables a tree; the
walk along `c` is now mapped and every other one is as it was; the memory it
changed is pages it took, or entries the walk along `c` read and found zero;
every table is an old one at the same place or a page it took, and every page
it took is a table; and it took at most one page a level. -/
structure CreateOk (bt bt' : BTable) (ps : Bool) (t : ℕ) (c : List ℕ) : Prop where
  window : WindowOk bt'
  root : bt'.root = bt.root
  term : bt'.termPage = bt.termPage
  next_le : bt.nextPage ≤ bt'.nextPage
  used : bt'.nextPage ≤ bt.nextPage + pageSize * (c.length - 1)
  tree : TreeOk bt' ps t c.length
  walk : ∀ q, q.length = c.length → ValidPath q →
    walkFrom bt'.mem ps t q = (walkFrom bt.mem ps t q || q == c)
  changed : ∀ w, bt'.mem w ≠ bt.mem w →
    (bt.nextPage ≤ w ∧ w < bt'.nextPage) ∨ (bt.mem w = 0 ∧ Reads bt.mem ps t c w)
  origin : ∀ r x, r.length < c.length → ValidPath r → tableFrom bt'.mem ps t r = some x →
    tableFrom bt.mem ps t r = some x ∨ (bt.nextPage ≤ x ∧ x < bt'.nextPage)
  taken : ∀ x, bt.nextPage ≤ x → x < bt'.nextPage → x % pageSize = 0 →
    ∃ r, r.length < c.length ∧ ValidPath r ∧ tableFrom bt'.mem ps t r = some x

/-- Two ways that share a step start with the same index. -/
theorem head_eq_of_shared_step {s q c : List ℕ} {k : ℕ} (hq : s ++ [k] <+: j :: q)
    (hc : s ++ [k] <+: i :: c) : j = i := by
  cases s <;> exact (List.cons_prefix_cons.1 hq).1.symm.trans (List.cons_prefix_cons.1 hc).1

/-- **The last level**: `pt->entry[pte] = addr | flags` on a zero entry. -/
theorem createOk_single (hw : WindowOk bt) (ht : TreeOk bt ps t 1) (h0 : entry bt.mem t i = 0)
    (hv : v ≠ 0) : CreateOk bt { bt with mem := update bt.mem (t + 8 * i) v } ps t [i] := by
  have hnil : ∀ r : List ℕ, r.length < [i].length → r = [] := fun r hr =>
    List.length_eq_zero.1 (Nat.lt_one_iff.1 hr)
  refine ⟨⟨hw.next, hw.term, hw.le⟩, rfl, rfl, le_rfl, by simp,
    ⟨fun r x hr hv hx => ?_, fun r r' _ hr hr' _ _ _ _ => ?_⟩,
    fun q hq _ => ?_, fun w hw' => ?_, fun r x hr _ hx => ?_, fun x h₁ h₂ _ => ?_⟩
  · obtain rfl := hnil r hr
    exact ht.table [] x hr hv hx
  · rw [hnil r hr, hnil r' hr']
  · obtain ⟨j, rfl⟩ := List.length_eq_one.1 hq
    by_cases hj : j = i
    · subst hj
      simp [walkFrom, entry, hv]
    · have : t + 8 * j ≠ t + 8 * i := by omega
      simp [walkFrom, entry, update_noteq this, hj]
  · by_cases hw'' : w = t + 8 * i
    · exact .inr ⟨hw'' ▸ h0, hw'' ▸ Reads.head⟩
    · exact absurd (update_noteq hw'' _ _) hw'
  · obtain rfl := hnil r hr
    exact .inl hx
  · exact absurd h₂ (Nat.not_lt.2 h₁)

/-- **Entries off the walk are untouched**: when the memory changed only in
pages taken and in entries read along `i :: c`, an entry read on a way that
leaves `t` through another index is as it was. -/
theorem TreeOk.reads_eq_of_head_ne (ht : TreeOk bt ps t (c.length + 1))
    (hc : ValidPath (i :: c)) (hn : bt'.nextPage ≤ bt.termPage)
    (hch : ∀ w, bt'.mem w ≠ bt.mem w →
      (bt.nextPage ≤ w ∧ w < bt'.nextPage) ∨ (bt.mem w = 0 ∧ Reads bt.mem ps t (i :: c) w))
    (q : List ℕ) (hq : ValidPath q) (hlen : q.length ≤ c.length + 1) (hhead : q.head? ≠ some i)
    (w : ℕ) (hw : Reads bt.mem ps t q w) : bt'.mem w = bt.mem w := by
  obtain ⟨s, k, x, hs, hx, rfl⟩ := hw
  by_contra hne
  obtain ⟨hslen, hsv, hk⟩ := hq.step hs
  obtain ⟨hxa, hxo⟩ := ht.table s x (by omega) hsv hx
  rcases hch _ hne with hf | ⟨-, s', k', x', hs', hx', he⟩
  · exact not_taken_of_offWindow hxo hk hn hf
  · obtain ⟨hs'len, hs'v, hk'⟩ := hc.step hs'
    obtain ⟨rfl, rfl⟩ := entry_addr_inj hxa (ht.table s' x' hs'len hs'v hx').1 hk hk' he
    obtain rfl := ht.inj s s' x (by omega) hs'len hsv hs'v hx hx'
    obtain ⟨j', q', rfl⟩ := List.exists_cons_of_ne_nil (List.ne_nil_of_length_pos (show 0 < q.length by omega))
    exact hhead (by rw [head_eq_of_shared_step hs hs']; rfl)

/-- **One level of `create_page`, then the rest**: the step from the table at
`t` through entry `i`, followed by a walk from the table it points to. -/
theorem CreateOk.lift (ht : TreeOk bt ps t (p.length + 2))
    (hc : ValidPath (i :: j :: p)) (ha : AllocOk bt bt₁ ps t i (p.length + 1))
    (hr : CreateOk bt₁ bt' true (pgptr (entry bt₁.mem t i)) (j :: p)) :
    CreateOk bt bt' ps t (i :: j :: p) := by
  set u := pgptr (entry bt₁.mem t i)
  obtain ⟨hta, hto⟩ := ht.root
  have hnp : bt'.nextPage ≤ bt.termPage := by
    have := hr.window.le; rwa [hr.term, ha.term] at this
  have hnp₁ := ha.next_le
  have hnp' := hr.next_le
  have hjp : ValidPath (j :: p) := hc.tail
  have hchanged : ∀ w, bt'.mem w ≠ bt.mem w → (bt.nextPage ≤ w ∧ w < bt'.nextPage) ∨
      (bt.mem w = 0 ∧ Reads bt.mem ps t (i :: j :: p) w) := by
    intro w hw'
    by_cases h₁ : bt₁.mem w = bt.mem w
    · rcases hr.changed w (h₁ ▸ hw') with ⟨h₂, h₃⟩ | ⟨h₂, h₃⟩
      · exact .inl ⟨by omega, h₃⟩
      · rcases ha.reads hjp le_rfl h₃ with h₄ | ⟨h₄, h₅⟩
        · exact .inr ⟨h₁ ▸ h₂, h₄⟩
        · exact .inl ⟨h₄, by omega⟩
    · rcases ha.changed w h₁ with ⟨h₂, h₃⟩ | ⟨rfl, h₂⟩
      · exact .inl ⟨h₂, by omega⟩
      · exact .inr ⟨h₂, Reads.head⟩
  -- an entry read on a way that leaves `t` through another index is untouched
  have hframe := TreeOk.reads_eq_of_head_ne (show TreeOk bt ps t ((j :: p).length + 1) from ht)
    hc hnp hchanged
  -- entry `i` of `t` is as the first part left it
  have hlink : entry bt'.mem t i = entry bt₁.mem t i := by
    by_contra hne
    rcases hr.changed _ hne with ⟨h₁, h₂⟩ | ⟨-, s, k, x, hs, hx, he⟩
    · exact not_taken_of_offWindow hto hc.head hnp ⟨by omega, h₂⟩
    · obtain ⟨hslen, hsv, hk⟩ := hjp.step hs
      obtain ⟨hxa, -⟩ := ha.tree.table s x hslen hsv hx
      obtain ⟨rfl, -⟩ := entry_addr_inj hta hxa hc.head hk he
      rcases ha.table s t hsv hx with hx' | ⟨h₁, h₂⟩
      · exact List.cons_ne_nil _ _ (ht.inj (i :: s) [] t (by simpa using hslen) (by simp)
          (hsv.cons hc.head) (fun _ h => absurd h (List.not_mem_nil _)) hx'
          rfl)
      · unfold OffWindow pageSize at hto
        omega
  have hcons : ∀ r, tableFrom bt'.mem ps t (i :: r) = tableFrom bt'.mem true u r := fun r => by
    rw [tableFrom_cons (hlink ▸ ha.link.1) (hlink ▸ ha.link.2), hlink]
  -- every table is an old one at the same place, or a page taken below entry `i`
  have horigin : ∀ r x, r.length < p.length + 2 → ValidPath r →
      tableFrom bt'.mem ps t r = some x → tableFrom bt.mem ps t r = some x ∨
        (bt.nextPage ≤ x ∧ x < bt'.nextPage ∧ ∃ r', r = i :: r' ∧
          tableFrom bt'.mem true u r' = some x) := by
    rintro (_ | ⟨k, r⟩) x hlen hv hx
    · exact .inl hx
    by_cases hk : k = i
    · subst hk
      rw [hcons] at hx
      have hrv : ValidPath r := hv.tail
      rcases hr.origin r x (by simpa using hlen) hrv hx with hx₁ | ⟨h₁, h₂⟩
      · rcases ha.table r x hrv hx₁ with hx₂ | ⟨h₃, h₄⟩
        · exact .inl hx₂
        · exact .inr ⟨h₃, by omega, r, rfl, hx⟩
      · exact .inr ⟨by omega, h₂, r, rfl, hx⟩
    · refine .inl ((tableFrom_congr fun w hw' => hframe (k :: r) hv hlen.le ?_ w hw').symm.trans hx)
      simpa using hk
  -- an old table is not a page taken
  have hold : ∀ r x, r.length < p.length + 2 → ValidPath r → tableFrom bt.mem ps t r = some x →
      ¬(bt.nextPage ≤ x ∧ x < bt'.nextPage) := fun r x hlen hv hx h => by
    have := (ht.table r x hlen hv hx).2
    unfold OffWindow pageSize at this
    omega
  refine ⟨hr.window, hr.root.trans ha.root, hr.term.trans ha.term, by omega, ?_, ⟨?_, ?_⟩,
    ?_, hchanged, fun r x hlen hv hx => (horigin r x hlen hv hx).imp_right fun h => ⟨h.1, h.2.1⟩,
    ?_⟩
  · have := hr.used; have := ha.used
    simp only [List.length_cons, Nat.add_sub_cancel] at *
    unfold pageSize at *
    omega
  · intro r x hlen hv hx
    rcases horigin r x hlen hv hx with hx' | ⟨-, -, r', rfl, hx'⟩
    · obtain ⟨hxa, hxo⟩ := ht.table r x hlen hv hx'
      exact ⟨hxa, hxo.imp (fun h => by omega) fun h => hr.term ▸ ha.term ▸ h⟩
    · exact hr.tree.table r' x (by simpa using hlen) hv.tail hx'
  · intro r r' x hlen hlen' hv hv' hx hx'
    rcases horigin r x hlen hv hx with h₁ | ⟨h₁, h₂, s, rfl, hs⟩ <;>
      rcases horigin r' x hlen' hv' hx' with h₃ | ⟨h₃, h₄, s', rfl, hs'⟩
    · exact ht.inj r r' x hlen hlen' hv hv' h₁ h₃
    · exact absurd ⟨h₃, h₄⟩ (hold r x hlen hv h₁)
    · exact absurd ⟨h₁, h₂⟩ (hold r' x hlen' hv' h₃)
    · rw [hr.tree.inj s s' x (by simpa using hlen) (by simpa using hlen') hv.tail hv'.tail hs hs']
  · rintro (_ | ⟨k, (_ | ⟨l, q⟩)⟩) hlen hv
    · simp at hlen
    · simp at hlen
    by_cases hk : k = i
    · subst hk
      have hq : ValidPath (l :: q) := hv.tail
      rw [← ha.walk (l :: q) (List.cons_ne_nil _ _) hq]
      have := hr.walk (l :: q) (by simpa using hlen) hq
      simp only [walkFrom, hlink, ha.link.1, ha.link.2, if_false, Bool.false_eq_true] at this ⊢
      rw [this]
      simp
    · rw [walkFrom_congr fun w hw' => hframe _ hv hlen.le (by simpa using hk) w hw']
      simp [hk]
  · intro x h₁ h₂ h₃
    by_cases hx : x < bt₁.nextPage
    · refine ⟨[i], by simp, hc.of_initial (List.cons_prefix_cons.2 ⟨rfl, List.nil_prefix⟩), ?_⟩
      rw [hcons, ha.taken x h₁ hx h₃]
      rfl
    · obtain ⟨r, hlen, hv, hx'⟩ := hr.taken x (by omega) h₂ h₃
      exact ⟨i :: r, by simpa using hlen, hv.cons hc.head, by rw [hcons, hx']⟩

/-- **What one walk of `create_page` does**, by induction along the indices,
when the walk of `is_mapped` along them was not mapped. -/
theorem createFrom_spec (hv : v ≠ 0) : ∀ {c : List ℕ} {bt bt' : BTable} {ps : Bool} {t : ℕ},
    c ≠ [] → ValidPath c → WindowOk bt → TreeOk bt ps t c.length →
    walkFrom bt.mem ps t c = false → createFrom bt t v c = some bt' → CreateOk bt bt' ps t c
  | [], _, _, _, _, hc, _, _, _, _, _ => absurd rfl hc
  | [i], bt, _, _, _, _, _, hw, ht, hnot, h => by
    cases h
    exact createOk_single hw ht (by simpa [walkFrom] using hnot) hv
  | i :: j :: p, bt, bt', ps, t, _, hc, hw, ht, hnot, h => by
    obtain ⟨bt₁, halloc, hrec⟩ := Option.bind_eq_some.1 h
    have ha := allocEntry_spec hw ht hc.head (fun h0 => by
      by_contra hl
      simp [walkFrom, h0, Bool.not_eq_false _ ▸ hl] at hnot) halloc
    refine CreateOk.lift ht hc ha (createFrom_spec hv (List.cons_ne_nil _ _)
      hc.tail ha.window ha.tree ?_ hrec)
    rw [ha.walk _ (List.cons_ne_nil _ _) hc.tail, hnot]

/-- With a page to spare for each level below the first, `create_page` does not
reach `fatal()`. -/
theorem createFrom_isSome (v : ℕ) : ∀ (c : List ℕ) (bt : BTable) (t : ℕ),
    pageSize * (c.length - 1) ≤ bt.termPage - bt.nextPage → ∃ bt', createFrom bt t v c = some bt'
  | [], bt, _, _ => ⟨bt, rfl⟩
  | [_], _, _, _ => ⟨_, rfl⟩
  | i :: j :: p, bt, t, h => by
    simp only [List.length_cons, Nat.add_sub_cancel] at h
    have hne : bt.nextPage ≠ bt.termPage := by unfold pageSize at h; omega
    show ∃ bt', (allocEntry bt t i).bind
      (fun bt₁ => createFrom bt₁ (pgptr (entry bt₁.mem t i)) v (j :: p)) = some bt'
    by_cases h0 : entry bt.mem t i = 0
    · rw [show allocEntry bt t i = some (bt.takePage t i) by
        simp only [allocEntry, allocPage, if_pos h0, if_neg hne]; rfl]
      exact createFrom_isSome v (j :: p) _ _ (by simp only [List.length_cons, Nat.add_sub_cancel,
        BTable.takePage_termPage, BTable.takePage_nextPage]; unfold pageSize at *; omega)
    · rw [show allocEntry bt t i = some bt from if_neg h0]
      exact createFrom_isSome v (j :: p) _ _ (by
        simp only [List.length_cons, Nat.add_sub_cancel]; unfold pageSize at *; omega)

end Create

end Acpi

end Mcube
