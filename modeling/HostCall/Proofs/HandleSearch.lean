import HostCall.HandleTable
import Mathlib.Data.Finset.Card
import Mathlib.Data.Nat.Find
import Mathlib.Order.Interval.Finset.Nat

/-! The handle for a new value. Handles are searched in a row, counting on from the last one given
out, and past `2 ^ 32 - 1` from 0 again. Only handle 0 and those of entries are not free, so of
`size + 2` different handles one is free: wherever there is a free handle, the search gives the
first one in its row. That is where trying them in turn without any bound comes to an end; on a
table that is full it never does. The search does not go round as long as the reach of the table,
the last handle and the number of live handles ahead of it together, stays below the number of
handles; and every operation takes the reach at most one further. Main statements: `next_spec`,
`exists_endsAt_iff`, `put_first_free`, `next_of_reach`, `reach_put`. -/

namespace HostCall

namespace HandleTable

variable {table : HandleTable} {h : UInt32}

theorem isFree_iff : table.isFree h = true ↔ h ≠ 0 ∧ table.get? h = none := by
  unfold isFree
  rw [Bool.and_eq_true, bne_iff_ne, Option.isNone_iff_eq_none]

theorem mem_of_not_isFree (hh : ¬table.isFree h) : h ∈ 0 :: table.entries.map Prod.fst := by
  by_cases hkey : h ∈ table.entries.map Prod.fst
  · exact List.mem_cons_of_mem 0 hkey
  · have hnone : table.get? h = none := by
      refine List.lookup_eq_none_iff.2 fun e he => ?_
      rw [bne_iff_ne]
      rintro rfl
      exact hkey (List.mem_map_of_mem he)
    have h0 : h = 0 := by
      by_cases h0 : h = 0
      · exact h0
      · exact absurd (isFree_iff.2 ⟨h0, hnone⟩) hh
    exact h0 ▸ List.mem_cons_self

theorem add_ofNat_succ (h : UInt32) (i : Nat) :
    h + UInt32.ofNat (i + 1) = h + 1 + UInt32.ofNat i := by
  rw [UInt32.ofNat_add, UInt32.add_assoc, UInt32.add_comm (UInt32.ofNat i)]
  rfl

theorem search_eq {tries j : Nat} (hj : j < tries) (hfree : table.isFree (h + UInt32.ofNat j))
    (htaken : ∀ i < j, ¬table.isFree (h + UInt32.ofNat i)) :
    table.search tries h = h + UInt32.ofNat j := by
  induction tries generalizing h j with
  | zero => contradiction
  | succ tries ih =>
    rw [search]
    cases j with
    | zero =>
      have h0 : h + UInt32.ofNat 0 = h := UInt32.add_zero h
      rw [h0] at hfree ⊢
      exact if_pos hfree
    | succ j =>
      have h0 : ¬table.isFree h := by
        have hfirst := htaken 0 (Nat.succ_pos j)
        rwa [show h + UInt32.ofNat 0 = h from UInt32.add_zero h] at hfirst
      rw [if_neg h0, add_ofNat_succ]
      refine ih (Nat.lt_of_succ_lt_succ hj) ?_ ?_
      · rwa [← add_ofNat_succ]
      · intro i hi
        rw [← add_ofNat_succ]
        exact htaken (i + 1) (Nat.succ_lt_succ hi)

/-- Handles in a row that are not free are no more than the entries and handle 0. -/
theorem le_size_of_not_isFree {n : Nat} (hn : n ≤ Addr.space)
    (htaken : ∀ i < n, ¬table.isFree (h + UInt32.ofNat i)) : n ≤ table.size + 1 := by
  let taken := (Finset.range n).image fun i => h + UInt32.ofNat i
  have hinj : Set.InjOn (fun i => h + UInt32.ofNat i) (Finset.range n) := by
    intro i hi j hj hij
    have hi := Finset.mem_range.1 hi
    have hj := Finset.mem_range.1 hj
    have heq : UInt32.ofNat i = UInt32.ofNat j := (UInt32.add_right_inj h).1 hij
    rw [← UInt32.toNat_inj, Addr.toNat_ofNat_of_lt (Nat.lt_of_lt_of_le hi hn),
      Addr.toNat_ofNat_of_lt (Nat.lt_of_lt_of_le hj hn)] at heq
    exact heq
  have hsub : taken ⊆ (0 :: table.entries.map Prod.fst).toFinset := by
    intro k hk
    obtain ⟨i, hi, rfl⟩ := Finset.mem_image.1 hk
    exact List.mem_toFinset.2 (mem_of_not_isFree (htaken i (Finset.mem_range.1 hi)))
  calc
    n = taken.card := by rw [Finset.card_image_of_injOn hinj, Finset.card_range]
    _ ≤ (0 :: table.entries.map Prod.fst).toFinset.card := Finset.card_le_card hsub
    _ ≤ (0 :: table.entries.map Prod.fst).length := List.toFinset_card_le _
    _ = table.size + 1 := by rw [List.length_cons, List.length_map, size]

/-- Counting on from `h`, the first free handle comes after no more others than there are entries and
handle 0. -/
theorem exists_first_free (h : UInt32) (hfree : ∃ k, table.isFree k) :
    ∃ j ≤ table.size + 1, table.isFree (h + UInt32.ofNat j) ∧
      ∀ i < j, ¬table.isFree (h + UInt32.ofNat i) := by
  obtain ⟨k, hk⟩ := hfree
  -- every handle lies ahead of `h` in the row, as far as its distance modulo `2 ^ 32`
  have hreach : h + UInt32.ofNat (k - h).toNat = k := by
    rw [UInt32.ofNat_toNat, UInt32.add_comm, UInt32.sub_add_cancel]
  have hex : ∃ j : Nat, table.isFree (h + UInt32.ofNat j) := ⟨(k - h).toNat, by rwa [hreach]⟩
  have htaken : ∀ i < Nat.find hex, ¬table.isFree (h + UInt32.ofNat i) :=
    fun i hi => Nat.find_min hex hi
  have hlt : Nat.find hex < Addr.space :=
    Nat.lt_of_le_of_lt (Nat.find_min' hex (by rwa [hreach])) (Addr.toNat_lt_space _)
  exact ⟨Nat.find hex, le_size_of_not_isFree (Nat.le_of_lt hlt) htaken, Nat.find_spec hex, htaken⟩

/-- Wherever there is a free handle, the next one is free, and those passed over are not. -/
theorem next_spec (hfree : ∃ h, table.isFree h) :
    ∃ j : Nat, table.next = table.last + 1 + UInt32.ofNat j ∧ table.isFree table.next ∧
      ∀ i < j, ¬table.isFree (table.last + 1 + UInt32.ofNat i) := by
  obtain ⟨j, hle, hfirst, htaken⟩ := exists_first_free (table.last + 1) hfree
  have hnext : table.next = table.last + 1 + UInt32.ofNat j :=
    search_eq (Nat.lt_succ_of_le hle) hfirst htaken
  exact ⟨j, hnext, hnext ▸ hfirst, htaken⟩

section Loop

variable {k : UInt32}

/-- Trying the handles from `h` on without any bound comes to an end at `k`. -/
inductive EndsAt (table : HandleTable) : (h k : UInt32) → Prop where
  | free {h : UInt32} : table.isFree h → table.EndsAt h h
  | taken {h k : UInt32} : ¬table.isFree h → table.EndsAt (h + 1) k → table.EndsAt h k

theorem EndsAt.isFree (hk : table.EndsAt h k) : table.isFree k := by
  induction hk with
  | free hfree => exact hfree
  | taken _ _ ih => exact ih

theorem EndsAt.unique {k' : UInt32} (hk : table.EndsAt h k) (hk' : table.EndsAt h k') : k' = k := by
  induction hk with
  | free hfree =>
    cases hk' with
    | free => rfl
    | taken htaken => contradiction
  | taken htaken _ ih =>
    cases hk' with
    | free => contradiction
    | taken _ hrest => exact ih hrest

theorem endsAt_of_first {j : Nat} (hfree : table.isFree (h + UInt32.ofNat j))
    (htaken : ∀ i < j, ¬table.isFree (h + UInt32.ofNat i)) :
    table.EndsAt h (h + UInt32.ofNat j) := by
  induction j generalizing h with
  | zero =>
    have h0 : h + UInt32.ofNat 0 = h := UInt32.add_zero h
    rw [h0] at hfree ⊢
    exact .free hfree
  | succ j ih =>
    have hfirst := htaken 0 (Nat.succ_pos j)
    rw [show h + UInt32.ofNat 0 = h from UInt32.add_zero h] at hfirst
    rw [add_ofNat_succ] at hfree ⊢
    apply EndsAt.taken hfirst
    apply ih hfree
    intro i hi
    rw [← add_ofNat_succ]
    exact htaken (i + 1) (Nat.succ_lt_succ hi)

/-- Trying one handle after the other comes to an end just where some handle is free, wherever it
starts. -/
theorem exists_endsAt_iff : (∃ k, table.EndsAt h k) ↔ ∃ k, table.isFree k := by
  constructor
  · rintro ⟨k, hk⟩
    exact ⟨k, hk.isFree⟩
  · intro hfree
    obtain ⟨j, -, hfirst, htaken⟩ := exists_first_free h hfree
    exact ⟨_, endsAt_of_first hfirst htaken⟩

theorem get?_put_next (hfree : table.isFree table.next) (r : Referent) (k : UInt32) :
    (table.put r).2.get? k = if k = table.next then some r else table.get? k :=
  get?_set table (isFree_iff.1 hfree).1 r k

/-- Wherever a handle other than 0 is free, trying them in turn from the one after the last given
out comes to an end, at the first in the row that is free, and `put` gives out that one: it stands
for the new value from then on, is the last given out, and no other entry is changed. Not more
handles are passed over than there are entries and handle 0, each of them 0 or in use. -/
theorem put_first_free (table : HandleTable) (r : Referent)
    (hfree : ∃ h, h ≠ 0 ∧ table.get? h = none) :
    ∃ j ≤ table.size + 1,
      let h := table.last + 1 + UInt32.ofNat j
      (∀ k, table.EndsAt (table.last + 1) k ↔ k = h) ∧ h ≠ 0 ∧ table.get? h = none ∧
        (∀ i < j, table.last + 1 + UInt32.ofNat i = 0 ∨
          (table.get? (table.last + 1 + UInt32.ofNat i)).isSome) ∧
        (table.put r).1 = h ∧ (table.put r).2.last = h ∧ (table.put r).2.get? h = some r ∧
        ∀ k, k ≠ h → (table.put r).2.get? k = table.get? k := by
  have hfree : ∃ h, table.isFree h := hfree.imp fun h hh => isFree_iff.2 hh
  obtain ⟨j, hle, hfirst, htaken⟩ := exists_first_free (table.last + 1) hfree
  have hnext : table.next = table.last + 1 + UInt32.ofNat j :=
    search_eq (Nat.lt_succ_of_le hle) hfirst htaken
  refine ⟨j, hle, ?_⟩
  rw [← hnext] at hfirst ⊢
  obtain ⟨h0, hnone⟩ := isFree_iff.1 hfirst
  refine ⟨?_, h0, hnone, ?_, rfl, rfl, ?_, ?_⟩
  · intro k
    have hend : table.EndsAt (table.last + 1) table.next := by
      rw [hnext] at hfirst ⊢
      exact endsAt_of_first hfirst htaken
    constructor
    · exact hend.unique
    · rintro rfl
      exact hend
  · intro i hi
    by_contra hnot
    obtain ⟨hzero, hlive⟩ := not_or.1 hnot
    exact htaken i hi (isFree_iff.2 ⟨hzero, Option.not_isSome_iff_eq_none.1 hlive⟩)
  · rw [get?_put_next hfirst, if_pos rfl]
  · intro k hk
    rw [get?_put_next hfirst, if_neg hk]

/-- From the last handle but one the row goes on with 0, and there are values set ahead in it. -/
theorem put_first_free_wraps :
    let r : Referent := ⟨.uintPtr, (5 : UInt64)⟩
    let table : HandleTable := ⟨0xfffffffe, [(1, r), (0xffffffff, ⟨.unit, ()⟩), (2, r)]⟩
    (∃ h, h ≠ 0 ∧ table.get? h = none) ∧ table.EndsAt 0xffffffff 3 ∧
      (table.put r).1 = 3 ∧ (table.put r).2.get? 3 = some r ∧
      (table.put r).2.get? 0xffffffff = some ⟨.unit, ()⟩ := by
  intro r table
  have hfree : ∃ h, h ≠ 0 ∧ table.get? h = none := ⟨3, by decide, rfl⟩
  have hput : (table.put r).1 = 3 := by decide
  obtain ⟨j, -, hloop, -, -, -, hfound, -, hnew, hkept⟩ := put_first_free table r hfree
  rw [← hfound, hput] at hloop hnew hkept
  exact ⟨hfree, (hloop 3).2 rfl, hput, hnew, hkept 0xffffffff (by decide)⟩

end Loop

section Reach

variable {n : Nat}

/-- The live handles greater than the last one given out. -/
def ahead (table : HandleTable) : Finset Nat :=
  (Finset.Ioo table.last.toNat Addr.space).filter fun n => (table.get? (UInt32.ofNat n)).isSome

/-- How far new handles may have gone, if all handles ahead are passed over. -/
def reach (table : HandleTable) : Nat := table.last.toNat + table.ahead.card

theorem mem_ahead : n ∈ table.ahead ↔
    (table.last.toNat < n ∧ n < Addr.space) ∧ (table.get? (UInt32.ofNat n)).isSome := by
  rw [ahead, Finset.mem_filter, Finset.mem_Ioo]

theorem reach_empty : empty.reach = 0 := by
  have hnone : empty.ahead = ∅ := Finset.filter_false_of_mem fun n _ hn => Bool.noConfusion hn
  rw [reach, hnone, Finset.card_empty]
  rfl

theorem reach_erase (table : HandleTable) (h : UInt32) : (table.erase h).reach ≤ table.reach := by
  refine Nat.add_le_add_left (Finset.card_le_card fun n hn => ?_) _
  obtain ⟨hrange, hlive⟩ := mem_ahead.1 hn
  rw [get?_erase] at hlive
  split at hlive
  · contradiction
  · exact mem_ahead.2 ⟨hrange, hlive⟩

theorem reach_set (table : HandleTable) (h : UInt32) (r : Referent) :
    (table.set h r).reach ≤ table.reach + 1 := by
  have hsub : (table.set h r).ahead ⊆ insert h.toNat table.ahead := by
    intro n hn
    obtain ⟨⟨hlow, hhigh⟩, hlive⟩ := mem_ahead.1 hn
    rw [last_set] at hlow
    rw [get?_set_eq] at hlive
    split at hlive
    · next hk =>
      rw [hk.1, Addr.toNat_ofNat_of_lt hhigh]
      exact Finset.mem_insert_self ..
    · exact Finset.mem_insert_of_mem (mem_ahead.2 ⟨⟨hlow, hhigh⟩, hlive⟩)
  have hcard := Nat.le_trans (Finset.card_le_card hsub) (Finset.card_insert_le ..)
  unfold reach
  rw [last_set]
  omega

theorem add_one_add_ofNat (h : UInt32) (i : Nat) :
    h + 1 + UInt32.ofNat i = UInt32.ofNat (h.toNat + 1 + i) := by
  rw [UInt32.ofNat_add, UInt32.ofNat_add, UInt32.ofNat_toNat]
  rfl

theorem isFree_ofNat (hlow : table.last.toNat < n) (hhigh : n < Addr.space) (hn : n ∉ table.ahead) :
    table.isFree (UInt32.ofNat n) := by
  refine isFree_iff.2 ⟨?_, ?_⟩
  · intro h0
    have hzero := Addr.toNat_ofNat_of_lt hhigh
    rw [h0] at hzero
    exact Nat.not_lt_zero _ (hzero ▸ hlow)
  · rw [← Option.not_isSome_iff_eq_none]
    exact fun hlive => hn (mem_ahead.2 ⟨⟨hlow, hhigh⟩, hlive⟩)

/-- While the handles cannot have gone all the way round, the next one is free and greater than the
last, and all between them are live. -/
theorem next_of_reach (hreach : table.reach + 1 < Addr.space) :
    table.isFree table.next ∧ table.last < table.next ∧
      Finset.Ioo table.last.toNat table.next.toNat ⊆ table.ahead := by
  have hcard : table.ahead.card < (Finset.Ioo table.last.toNat Addr.space).card := by
    unfold reach at hreach
    rw [Nat.card_Ioo]
    omega
  obtain ⟨m, hm, hahead⟩ := Finset.exists_mem_notMem_of_card_lt_card hcard
  obtain ⟨hlow, hhigh⟩ := Finset.mem_Ioo.1 hm
  have hfree := isFree_ofNat hlow hhigh hahead
  obtain ⟨j, hnext, hnextfree, htaken⟩ := next_spec ⟨_, hfree⟩
  simp only [add_one_add_ofNat] at hnext htaken
  -- a free handle ahead of the last one is not passed over
  have hj : table.last.toNat + 1 + j ≤ m := by
    by_contra hlt
    refine htaken (m - (table.last.toNat + 1)) (by omega) ?_
    rwa [Nat.add_sub_cancel' hlow]
  have hnat : table.next.toNat = table.last.toNat + 1 + j := by
    rw [hnext, Addr.toNat_ofNat_of_lt (Nat.lt_of_le_of_lt hj hhigh)]
  refine ⟨hnextfree, UInt32.lt_iff_toNat_lt.2 (by omega), ?_⟩
  intro n hn
  obtain ⟨hn, hn'⟩ := Finset.mem_Ioo.1 hn
  by_contra hnot
  refine htaken (n - (table.last.toNat + 1)) (by omega) ?_
  rw [Nat.add_sub_cancel' hn]
  exact isFree_ofNat hn (by omega) hnot

/-- The handles that a new one passes over are not ahead any more. -/
theorem reach_put (hreach : table.reach + 1 < Addr.space) (r : Referent) :
    (table.put r).2.reach ≤ table.reach + 1 := by
  obtain ⟨-, hlt, hpassed⟩ := next_of_reach hreach
  have hlt := UInt32.lt_iff_toNat_lt.1 hlt
  have hahead : (table.put r).2.ahead ⊆ table.ahead := by
    intro n hn
    obtain ⟨⟨hlow, hhigh⟩, hlive⟩ := mem_ahead.1 hn
    change table.next.toNat < n at hlow
    have hne : ¬(table.next = UInt32.ofNat n ∧ table.next ≠ 0) := by
      rintro ⟨heq, -⟩
      rw [heq, Addr.toNat_ofNat_of_lt hhigh] at hlow
      exact Nat.lt_irrefl n hlow
    change ((table.set table.next r).get? (UInt32.ofNat n)).isSome at hlive
    rw [get?_set_eq, if_neg hne] at hlive
    exact mem_ahead.2 ⟨⟨Nat.lt_trans hlt hlow, hhigh⟩, hlive⟩
  have hdisjoint : Disjoint (Finset.Ioo table.last.toNat table.next.toNat)
      (table.put r).2.ahead := by
    refine Finset.disjoint_left.2 fun n hn hn' => ?_
    have hbelow := (Finset.mem_Ioo.1 hn).2
    have habove : table.next.toNat < n := (mem_ahead.1 hn').1.1
    omega
  have hcard := Finset.card_le_card (Finset.union_subset hpassed hahead)
  rw [Finset.card_union_of_disjoint hdisjoint, Nat.card_Ioo] at hcard
  change table.next.toNat + _ ≤ table.last.toNat + _ + 1
  omega

end Reach

end HandleTable

end HostCall
