import TyloQuant.PrefixCache.Accounting

/-!
# The tail tables

`tail_metadata_` says which tails there are, and `tail_lengths_` counts them by parent and
length.  The counts are exact as long as the two are only changed together, and a count is
never kept at zero.
-/

namespace TyloQuant.PrefixCache

open Lib

variable {H : Type} [DecidableEq H]

/-- How many tails have this parent and this length. -/
def tailCount (metadata : Table H (H × Nat)) (parent : H) (count : Nat) : Nat :=
  Table.total (fun m => if m = (parent, count) then 1 else 0) metadata

/-- The count kept for a parent and a length. -/
def countAt (lengths : Table H (Table Nat Nat)) (parent : H) (count : Nat) : Option Nat :=
  (lengths.lookup parent).bind fun row => row.lookup count

/-- The counts are those of the tails there are; where there are none, no count is kept. -/
structure Indexed (lengths : Table H (Table Nat Nat)) (metadata : Table H (H × Nat)) : Prop where
  counted : ∀ parent count, countAt lengths parent count =
    if tailCount metadata parent count = 0 then none else some (tailCount metadata parent count)
  rows : ∀ parent row, lengths.lookup parent = some row → row.entries.isEmpty = false

omit [DecidableEq H] in
theorem isEmpty_of_lookup {row : Table Nat Nat} {count n : Nat}
    (h : row.lookup count = some n) : row.entries.isEmpty = false := by
  cases hentries : row.entries with
  | nil =>
    have hnone : row.lookup count = none := by
      simp [AList.lookup, hentries]
    rw [hnone] at h
    cases h
  | cons e es => rfl

theorem tailCount_insert {metadata : Table H (H × Nat)} {h : H} (hnew : h ∉ metadata)
    (parent p : H) (count n : Nat) :
    tailCount (metadata.insert h (parent, count)) p n =
      (if p = parent ∧ n = count then 1 else 0) + tailCount metadata p n := by
  unfold tailCount
  rw [Table.total_insert_of_none _ (AList.lookup_eq_none.mpr hnew)]
  simp only [Prod.mk.injEq]
  congr 1
  by_cases heq : p = parent ∧ n = count
  · rw [if_pos heq, if_pos ⟨heq.1.symm, heq.2.symm⟩]
  · rw [if_neg heq, if_neg fun h => heq ⟨h.1.symm, h.2.symm⟩]

theorem tailCount_erase {metadata : Table H (H × Nat)} {h parent : H} {count : Nat}
    (hold : metadata.lookup h = some (parent, count)) (p : H) (n : Nat) :
    tailCount metadata p n =
      tailCount (metadata.erase h) p n + if p = parent ∧ n = count then 1 else 0 := by
  have hsum := Table.total_eq_erase (fun m => if m = (p, n) then 1 else 0) metadata h
  unfold tailCount
  rw [hsum, hold]
  simp only [Option.map_some, Option.getD_some, Prod.mk.injEq]
  congr 1
  by_cases heq : p = parent ∧ n = count
  · rw [if_pos heq, if_pos ⟨heq.1.symm, heq.2.symm⟩]
  · rw [if_neg heq, if_neg fun h => heq ⟨h.1.symm, h.2.symm⟩]

theorem countAt_insert (lengths : Table H (Table Nat Nat)) (parent p : H) (count n value : Nat) :
    countAt (lengths.insert parent (((lengths.lookup parent).getD ∅).insert count value)) p n =
      if p = parent ∧ n = count then some value else countAt lengths p n := by
  unfold countAt
  rw [Table.lookup_insert_ite]
  by_cases hp : p = parent
  · subst hp
    simp only [if_true, Option.bind_some, Table.lookup_insert_ite, true_and]
    split
    · rfl
    · cases hrow : lengths.lookup p with
      | none => simp
      | some row => rfl
  · rw [if_neg hp, if_neg fun h => hp h.1]

namespace Indexed

variable {lengths : Table H (Table Nat Nat)} {metadata : Table H (H × Nat)}

theorem empty : Indexed (∅ : Table H (Table Nat Nat)) ∅ := by
  constructor
  · intro parent count
    rfl
  · intro parent row hrow
    cases hrow

theorem remember (hi : Indexed lengths metadata) {h : H} (hnew : h ∉ metadata) (parent : H)
    (count : Nat) :
    Indexed (lengths.insert parent (((lengths.lookup parent).getD ∅).insert count
      ((((lengths.lookup parent).getD ∅).lookup count).getD 0 + 1)))
      (metadata.insert h (parent, count)) := by
  have hvalue : (((lengths.lookup parent).getD ∅).lookup count).getD 0 =
      tailCount metadata parent count := by
    have hcount := hi.counted parent count
    unfold countAt at hcount
    cases hrow : lengths.lookup parent with
    | none =>
      rw [hrow] at hcount
      simp only [Option.bind_none] at hcount
      split at hcount
      · rename_i hzero
        simp [hzero]
      · cases hcount
    | some row =>
      rw [hrow] at hcount
      simp only [Option.bind_some] at hcount
      rw [Option.getD_some, hcount]
      split
      · rename_i hzero
        simp [hzero]
      · rfl
  constructor
  · intro p n
    rw [countAt_insert, tailCount_insert hnew, hvalue]
    by_cases heq : p = parent ∧ n = count
    · obtain ⟨rfl, rfl⟩ := heq
      simp only [and_self, if_true]
      rw [if_neg (by omega), Nat.add_comm]
    · rw [if_neg heq, if_neg heq, Nat.zero_add]
      exact hi.counted p n
  · exact Table.forall_insert hi.rows (isEmpty_of_lookup (AList.lookup_insert _))

/-- The row of a parent with one count changed or taken away. -/
theorem countAt_setRow (lengths : Table H (Table Nat Nat)) (parent p : H) (n : Nat)
    (row : Table Nat Nat) :
    countAt (if row.entries.isEmpty then lengths.erase parent else lengths.insert parent row) p n =
      if p = parent then row.lookup n else countAt lengths p n := by
  unfold countAt
  by_cases hp : p = parent
  · subst hp
    rw [if_pos rfl]
    split
    · rename_i hempty
      rw [AList.lookup_erase]
      have hnil : row.entries = [] := by simpa using hempty
      simp [AList.lookup, hnil]
    · rw [AList.lookup_insert]
      rfl
  · rw [if_neg hp]
    split
    · rw [AList.lookup_erase_ne hp]
    · rw [AList.lookup_insert_ne hp]

theorem rows_setRow
    (hrows : ∀ p row, lengths.lookup p = some row → row.entries.isEmpty = false)
    {parent p : H} {row row' : Table Nat Nat}
    (h : (if row.entries.isEmpty then lengths.erase parent
      else lengths.insert parent row).lookup p = some row') : row'.entries.isEmpty = false := by
  split at h
  · exact hrows p row' (Table.lookup_of_erase h)
  · rename_i hsome
    exact Table.forall_insert hrows (by simpa using hsome) p row' h

theorem forget (hi : Indexed lengths metadata) {h parent : H} {count : Nat}
    (hold : metadata.lookup h = some (parent, count)) :
    Indexed (dropLength lengths parent count) (metadata.erase h) := by
  have hsome := hi.counted parent count
  have hpos := tailCount_erase hold parent count
  simp only [and_self, if_true] at hpos
  rw [if_neg (by omega)] at hsome
  unfold countAt at hsome
  obtain ⟨row, hrow, hlookup⟩ := Option.bind_eq_some_iff.mp hsome
  unfold dropLength
  rw [hrow]
  dsimp only
  rw [hlookup]
  dsimp only
  constructor
  · intro p n
    rw [countAt_setRow]
    have hcount := hi.counted p n
    rw [tailCount_erase hold p n] at hcount
    by_cases hp : p = parent
    · subst hp
      unfold countAt at hcount
      rw [hrow] at hcount
      simp only [Option.bind_some] at hcount
      rw [if_pos rfl]
      by_cases hn : n = count
      · subst hn
        split
        · rename_i hone
          rw [AList.lookup_erase, if_pos (by omega)]
        · rename_i hmore
          rw [AList.lookup_insert, if_neg (by omega), hpos, Nat.add_sub_cancel]
      · have hsame : (if tailCount metadata p count = 1 then row.erase count
            else row.insert count (tailCount metadata p count - 1)).lookup n = row.lookup n := by
          split
          · exact AList.lookup_erase_ne hn
          · exact AList.lookup_insert_ne hn
        rw [hsame, hcount]
        simp [hn]
    · rw [if_neg hp, hcount, if_neg (show ¬(p = parent ∧ n = count) from fun h => hp h.1)]
      rfl
  · intro p row' hrow'
    exact rows_setRow hi.rows hrow'

end Indexed

end TyloQuant.PrefixCache
