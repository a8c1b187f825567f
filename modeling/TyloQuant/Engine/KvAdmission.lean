import Mathlib.Data.Set.Card
import Mathlib.Order.Interval.Finset.Nat
import TyloQuant.Lib.Loops

/-!
# The bytes that a cache prefix maps

The heads of a cache lie one behind the other, each with room for the longest sequence, and a
request maps the pages that the prefix of a head touches.  Two heads may share a page, so
`kv_admission_mapping_bytes` goes over the heads and counts what lies behind the pages so far.
-/

namespace TyloQuant.Engine

open Lib

/-- The largest `size_t`. -/
def sizeMax : Nat := 2 ^ 64 - 1

/-- `prefill_budget_add`. -/
def prefillBudgetAdd (a b : Nat) : Nat := if sizeMax - b < a then sizeMax else a + b

/-- `kv_admission_multiply`. -/
def kvAdmissionMultiply (a b : Nat) : Nat := if a ≠ 0 ∧ sizeMax / a < b then sizeMax else a * b

/-- One round of the loop over the heads: the pages so far, and the end of the last one. -/
def countHead (stride extent quantum : Nat) (state : Nat × Nat) (head : Nat) : Nat × Nat :=
  let begin := kvAdmissionMultiply head stride
  let end_ := prefillBudgetAdd begin extent
  let first := max (begin / quantum) state.2
  let last := end_ / quantum + if end_ % quantum ≠ 0 then 1 else 0
  (if first < last then prefillBudgetAdd state.1 (last - first) else state.1, max state.2 last)

/-- `kv_admission_mapping_bytes`. -/
def kvAdmissionMappingBytes (heads maximum tokens rowBytes quantum : Nat) : Except String Nat :=
  if quantum = 0 ∨ maximum < tokens then
    .error "invalid KV mapping geometry"
  else if tokens = 0 then
    .ok 0
  else
    let stride := kvAdmissionMultiply maximum rowBytes
    let extent := kvAdmissionMultiply tokens rowBytes
    let state := (List.range heads).foldl (countHead stride extent quantum) (0, 0)
    .ok (kvAdmissionMultiply state.1 quantum)

/-- The pages that the prefixes of the first heads touch. -/
def touchedPages (heads maximum tokens rowBytes quantum : Nat) : Set Nat :=
  {k | ∃ head < heads, ∃ byte, k * quantum ≤ byte ∧ byte < (k + 1) * quantum ∧
    head * (maximum * rowBytes) ≤ byte ∧ byte < head * (maximum * rowBytes) + tokens * rowBytes}

theorem prefillBudgetAdd_eq {a b : Nat} (h : a + b ≤ sizeMax) : prefillBudgetAdd a b = a + b :=
  if_neg (by omega)

theorem kvAdmissionMultiply_eq {a b : Nat} (h : a * b ≤ sizeMax) :
    kvAdmissionMultiply a b = a * b := by
  refine if_neg fun ⟨ha, hlt⟩ => ?_
  rw [Nat.div_lt_iff_lt_mul (Nat.pos_of_ne_zero ha), Nat.mul_comm b] at hlt
  omega

/-- The page behind the last one that a range touches. -/
def lastPage (end_ quantum : Nat) : Nat := end_ / quantum + if end_ % quantum ≠ 0 then 1 else 0

variable {quantum : Nat}

theorem lt_lastPage (hquantum : 0 < quantum) {end_ k : Nat} :
    k < lastPage end_ quantum ↔ k * quantum < end_ := by
  have hdiv := Nat.div_add_mod' end_ quantum
  have hmod := Nat.mod_lt end_ hquantum
  unfold lastPage
  constructor
  · intro hk
    split at hk
    · have hle : k * quantum ≤ end_ / quantum * quantum := Nat.mul_le_mul_right _ (by omega)
      omega
    · have hle : (k + 1) * quantum ≤ end_ / quantum * quantum := Nat.mul_le_mul_right _ (by omega)
      rw [Nat.succ_mul] at hle
      omega
  · intro hk
    by_contra hge
    have hle : end_ / quantum * quantum ≤ k * quantum := Nat.mul_le_mul_right _ (by omega)
    split at hge
    · have hle' : (end_ / quantum + 1) * quantum ≤ k * quantum := Nat.mul_le_mul_right _ (by omega)
      rw [Nat.succ_mul] at hle'
      omega
    · omega

theorem touches_iff (hquantum : 0 < quantum) {begin extent k : Nat}
    (hempty : extent = 0 → begin = 0) :
    (∃ byte, k * quantum ≤ byte ∧ byte < (k + 1) * quantum ∧ begin ≤ byte ∧ byte < begin + extent) ↔
      begin / quantum ≤ k ∧ k < lastPage (begin + extent) quantum := by
  rw [lt_lastPage hquantum, ← Nat.lt_succ_iff, Nat.div_lt_iff_lt_mul hquantum, Nat.succ_mul]
  constructor
  · rintro ⟨byte, hlow, hhigh, hbegin, hend⟩
    omega
  · rintro ⟨hbegin, hend⟩
    refine ⟨max (k * quantum) begin, ?_⟩
    omega

theorem lastPage_le (hquantum : 0 < quantum) (end_ : Nat) : lastPage end_ quantum ≤ end_ := by
  by_contra hlt
  have hpage := (lt_lastPage hquantum).mp (Nat.not_le.mp hlt)
  have hle := Nat.le_mul_of_pos_right end_ hquantum
  omega

/-- What the loop has counted after some heads: their pages.  No page is counted behind the end of
    the last one, and none before it is missing that the next head may touch. -/
structure Counted (heads stride extent quantum : Nat) (state : Nat × Nat) (pages : Finset Nat) :
    Prop where
  count : state.1 = pages.card
  mem : ∀ k, k ∈ pages ↔ ∃ head < heads, (head * stride) / quantum ≤ k ∧
    k < lastPage (head * stride + extent) quantum
  ended : ∀ k ∈ pages, k < state.2
  covered : ∀ k, (heads * stride) / quantum ≤ k → k < state.2 → k ∈ pages

theorem Counted.step {heads stride extent : Nat} {state : Nat × Nat} {pages : Finset Nat}
    (h : Counted heads stride extent quantum state pages) (hquantum : 0 < quantum)
    (hfit : heads * stride + extent ≤ sizeMax) :
    ∃ pages', Counted (heads + 1) stride extent quantum
      (countHead stride extent quantum state heads) pages' := by
  have hsucc : (heads + 1) * stride = heads * stride + stride := Nat.succ_mul heads stride
  have hbegin := kvAdmissionMultiply_eq (show heads * stride ≤ sizeMax by omega)
  have hend := prefillBudgetAdd_eq hfit
  generalize hfirst : max (heads * stride / quantum) state.2 = first
  generalize hlast : lastPage (heads * stride + extent) quantum = last
  have hmem : ∀ k, k ∈ pages ∪ Finset.Ico first last ↔ ∃ head < heads + 1,
      (head * stride) / quantum ≤ k ∧ k < lastPage (head * stride + extent) quantum := by
    intro k
    rw [Finset.mem_union, Finset.mem_Ico, h.mem]
    constructor
    · rintro (⟨head, hhead, hk⟩ | ⟨hle, hlt⟩)
      · exact ⟨head, by omega, hk⟩
      · exact ⟨heads, by omega, by omega, by omega⟩
    · rintro ⟨head, hhead, hle, hlt⟩
      rcases Nat.lt_succ_iff_lt_or_eq.mp hhead with hbefore | rfl
      · exact .inl ⟨head, hbefore, hle, hlt⟩
      · by_cases hnew : k < state.2
        · exact .inl ((h.mem k).mp (h.covered k hle hnew))
        · exact .inr ⟨by omega, by omega⟩
  have hcard : (pages ∪ Finset.Ico first last).card = pages.card + (last - first) := by
    rw [Finset.card_union_of_disjoint, Nat.card_Ico]
    rw [Finset.disjoint_left]
    intro k hk hk'
    have hlt := h.ended k hk
    rw [Finset.mem_Ico] at hk'
    omega
  have hfew : pages.card + (last - first) ≤ sizeMax := by
    have hsub : pages ∪ Finset.Ico first last ⊆ Finset.range (heads * stride + extent) := by
      intro k hk
      obtain ⟨head, hhead, -, hlt⟩ := (hmem k).mp hk
      have hle := lastPage_le hquantum (head * stride + extent)
      have hmul : head * stride ≤ heads * stride :=
        Nat.mul_le_mul_right _ (Nat.le_of_lt_succ hhead)
      exact Finset.mem_range.mpr (by omega)
    have hle := Finset.card_le_card hsub
    rw [hcard, Finset.card_range] at hle
    omega
  have hstate : countHead stride extent quantum state heads =
      (pages.card + (last - first), max state.2 last) := by
    unfold countHead
    simp only [hbegin, hend, hfirst]
    rw [show (heads * stride + extent) / quantum + _ = last from hlast, h.count]
    split
    · rw [prefillBudgetAdd_eq hfew]
    · rw [show last - first = 0 by omega, Nat.add_zero]
  rw [hstate]
  refine ⟨pages ∪ Finset.Ico first last, hcard.symm, hmem, fun k hk => ?_, fun k hle hlt => ?_⟩
  · rcases Finset.mem_union.mp hk with hk | hk
    · exact Nat.lt_of_lt_of_le (h.ended k hk) (Nat.le_max_left _ _)
    · exact Nat.lt_of_lt_of_le (Finset.mem_Ico.mp hk).2 (Nat.le_max_right _ _)
  · have hbefore : heads * stride / quantum ≤ k :=
      (Nat.div_le_div_right (by omega)).trans hle
    rw [Finset.mem_union, Finset.mem_Ico]
    by_cases hnew : k < state.2
    · exact .inl (h.covered k hbefore hnew)
    · dsimp only at hlt
      exact .inr ⟨by omega, by omega⟩

theorem counted_foldl {stride extent : Nat} (hquantum : 0 < quantum) (heads : Nat)
    (hfit : ∀ head < heads, head * stride + extent ≤ sizeMax) :
    ∃ pages, Counted heads stride extent quantum
      ((List.range heads).foldl (countHead stride extent quantum) (0, 0)) pages := by
  induction heads with
  | zero =>
    exact ⟨∅, rfl, fun k => by simp, fun k hk => absurd hk (Finset.notMem_empty k),
      fun k _ hk => absurd hk (Nat.not_lt_zero k)⟩
  | succ heads ih =>
    obtain ⟨pages, hcounted⟩ := ih fun head hhead => hfit head (Nat.lt_succ_of_lt hhead)
    rw [List.range_succ, List.foldl_append]
    exact hcounted.step hquantum (hfit heads (Nat.lt_succ_self heads))

/-- A stride past `size_t` leaves every head where it is: there is one at most. -/
theorem head_mul_stride {heads maximum rowBytes head : Nat} (hhead : head < heads)
    (hfit : ∀ head < heads, head * (maximum * rowBytes) ≤ sizeMax) :
    head * kvAdmissionMultiply maximum rowBytes = head * (maximum * rowBytes) := by
  rcases Nat.eq_zero_or_pos head with rfl | hpos
  · rw [Nat.zero_mul, Nat.zero_mul]
  · have hone := Nat.le_mul_of_pos_left (maximum * rowBytes) hpos
    rw [kvAdmissionMultiply_eq (hone.trans (hfit head hhead))]

/-- **The mapping counts each page once**: the result is the bytes of the pages that some prefix
    touches, when no prefix ends past `size_t`. -/
theorem kvAdmissionMappingBytes_eq {heads maximum tokens rowBytes quantum : Nat}
    (hquantum : 0 < quantum) (htokens : tokens ≤ maximum)
    (hfit : ∀ head < heads, head * (maximum * rowBytes) + tokens * rowBytes ≤ sizeMax)
    (hresult : (touchedPages heads maximum tokens rowBytes quantum).ncard * quantum ≤ sizeMax) :
    kvAdmissionMappingBytes heads maximum tokens rowBytes quantum =
      .ok (quantum * (touchedPages heads maximum tokens rowBytes quantum).ncard) := by
  unfold kvAdmissionMappingBytes
  rw [if_neg (by omega)]
  split
  · rename_i hzero
    have hnone : touchedPages heads maximum tokens rowBytes quantum = ∅ := by
      refine Set.eq_empty_of_forall_notMem fun k ⟨head, _, byte, _, _, hbegin, hend⟩ => ?_
      rw [hzero, Nat.zero_mul] at hend
      omega
    rw [hnone, Set.ncard_empty, Nat.mul_zero]
  · rename_i hsome
    rcases Nat.eq_zero_or_pos heads with rfl | hheads
    · have hnone : touchedPages 0 maximum tokens rowBytes quantum = ∅ :=
        Set.eq_empty_of_forall_notMem fun k ⟨head, hhead, _⟩ => Nat.not_lt_zero head hhead
      rw [hnone, Set.ncard_empty, Nat.mul_zero]
      simp [kvAdmissionMultiply]
    · have hprefix : tokens * rowBytes ≤ sizeMax := by
        have hfirst := hfit 0 hheads
        omega
      have hmultiple : ∀ head < heads, head * kvAdmissionMultiply maximum rowBytes =
          head * (maximum * rowBytes) := fun head hhead =>
        head_mul_stride hhead fun head hhead => (Nat.le_add_right _ _).trans (hfit head hhead)
      obtain ⟨pages, hcounted⟩ := counted_foldl hquantum heads fun head hhead => by
        rw [hmultiple head hhead]
        exact hfit head hhead
      have hpages : touchedPages heads maximum tokens rowBytes quantum = (pages : Set Nat) := by
        ext k
        rw [Finset.mem_coe, hcounted.mem]
        refine exists_congr fun head => and_congr_right fun hhead => ?_
        rw [hmultiple head hhead]
        refine touches_iff hquantum fun hzero => ?_
        rcases Nat.mul_eq_zero.mp hzero with hzero | hzero
        · exact absurd hzero hsome
        · rw [hzero, Nat.mul_zero, Nat.mul_zero]
      rw [hpages, Set.ncard_coe_finset] at hresult ⊢
      simp only [kvAdmissionMultiply_eq hprefix, hcounted.count]
      rw [kvAdmissionMultiply_eq hresult, Nat.mul_comm]

/-- Two heads of eight rows each, and a prefix of one row: two pages, and none between them. -/
theorem kvAdmissionMappingBytes_two :
    (touchedPages 2 8 1 4 16).ncard = 2 ∧ kvAdmissionMappingBytes 2 8 1 4 16 = .ok (16 * 2) := by
  have htouched : touchedPages 2 8 1 4 16 = (({0, 2} : Finset Nat) : Set Nat) := by
    ext k
    rw [Finset.mem_coe, Finset.mem_insert, Finset.mem_singleton]
    constructor
    · rintro ⟨head, hhead, byte, hbyte⟩
      omega
    · rintro (rfl | rfl)
      · exact ⟨0, by decide, 0, by decide⟩
      · exact ⟨1, by decide, 32, by decide⟩
  have hcard : (touchedPages 2 8 1 4 16).ncard = 2 := by
    rw [htouched, Set.ncard_coe_finset]
    rfl
  have hbytes := @kvAdmissionMappingBytes_eq 2 8 1 4 16 (by decide) (by decide) (by decide)
    (by rw [hcard]; decide)
  rw [hcard] at hbytes
  exact ⟨hcard, hbytes⟩

end TyloQuant.Engine
