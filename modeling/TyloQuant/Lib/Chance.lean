import Mathlib

/-!
# Chances of finite draws and of independent uniforms

Two sources of randomness.  Draws from a finite type one after the other, each from a law that
may depend on the draws before it: `mean law k f` is the mean of `f` over `k` of them.
And independent uniform numbers in `[0, 1)`, whose chance of falling in a box is the product of
the chances of its sides.
-/

namespace TyloQuant.Lib

open MeasureTheory

/-! ### Draws -/

variable {i k : ℕ}

section Draws

variable {α : Type} [Fintype α]

/-- The mean of `f` over `k` draws. -/
def mean (law : List α → α → ℝ) : ℕ → (List α → ℝ) → ℝ
  | 0, f => f []
  | k + 1, f => ∑ x, law [] x * mean (fun e => law (x :: e)) k (fun ds => f (x :: ds))

/-- A list of draws that can come. -/
def Possible (law : List α → α → ℝ) : List α → Prop
  | [] => True
  | x :: e => law [] x ≠ 0 ∧ Possible (fun e' => law (x :: e')) e

variable {law : List α → α → ℝ} {f : List α → ℝ}

theorem mean_congr {g : List α → ℝ} (h : ∀ ds, ds.length = k → Possible law ds → f ds = g ds) :
    mean law k f = mean law k g := by
  induction k generalizing law f g with
  | zero => exact h [] rfl trivial
  | succ k ih =>
    unfold mean
    apply Finset.sum_congr rfl
    intro x _
    by_cases hx : law [] x = 0
    · simp [hx]
    · congr 1
      apply ih
      intro ds hlength hds
      exact h (x :: ds) (by simp [hlength]) ⟨hx, hds⟩

/-- Where every law sums to one, what does not depend on the draws is its own mean. -/
theorem mean_const (hlaw : ∀ e, ∑ x, law e x = 1) (k : ℕ) (a : ℝ) :
    mean law k (fun _ => a) = a := by
  induction k generalizing law with
  | zero => rfl
  | succ k ih =>
    unfold mean
    simp only [ih fun e => hlaw (_ :: e)]
    rw [← Finset.sum_mul, hlaw, one_mul]

theorem mean_append (law : List α → α → ℝ) (i k : ℕ) (f : List α → ℝ) :
    mean law (i + k) f =
      mean law i (fun e => mean (fun e' => law (e ++ e')) k (fun ds => f (e ++ ds))) := by
  induction i generalizing law f with
  | zero => simp [mean]
  | succ i ih =>
    rw [Nat.succ_add]
    unfold mean
    simp only [ih, List.cons_append]

theorem mean_mul (law : List α → α → ℝ) (k : ℕ) (f : List α → ℝ) (a : ℝ) :
    mean law k (fun ds => f ds * a) = mean law k f * a := by
  induction k generalizing law f with
  | zero => rfl
  | succ k ih =>
    unfold mean
    simp only [ih]
    rw [Finset.sum_mul]
    apply Finset.sum_congr rfl
    intro x _
    ring

theorem mean_first (hlaw : ∀ e, ∑ x, law e x = 1) (hi : i ≤ k) {g : List α → ℝ}
    (hf : ∀ e ds, e.length = i → (e ++ ds).length = k → Possible law (e ++ ds) → f (e ++ ds) = g e) :
    mean law k f = mean law i g := by
  have htake : mean law k f = mean law k (fun ds => g (ds.take i)) := by
    apply mean_congr
    intro ds hlength hds
    have h := hf (ds.take i) (ds.drop i) (by simp; omega)
    rw [List.take_append_drop] at h
    exact h hlength hds
  obtain ⟨m, rfl⟩ := Nat.exists_eq_add_of_le hi
  rw [htake, mean_append]
  apply mean_congr
  intro e he _
  simp only [List.take_left' he]
  exact mean_const (fun e' => hlaw (e ++ e')) m (g e)

theorem mean_next (hlaw : ∀ e, ∑ x, law e x = 1) (hi : i < k) {g : List α → α → ℝ}
    (hf : ∀ e x ds, e.length = i →
      (e ++ x :: ds).length = k → Possible law (e ++ x :: ds) → f (e ++ x :: ds) = g e x) :
    mean law k f = mean law i (fun e => ∑ x, law e x * g e x) := by
  have htake : mean law k f =
      mean law k (fun ds => (ds.drop i).head?.elim 0 (g (ds.take i))) := by
    apply mean_congr
    intro ds hlength hds
    have hsplit := List.take_append_drop i ds
    cases hdrop : ds.drop i with
    | nil =>
      have hshort := List.drop_eq_nil_iff.mp hdrop
      omega
    | cons x rest =>
      rw [hdrop] at hsplit
      have h := hf (ds.take i) x rest (by simp; omega)
      rw [hsplit] at h
      exact h hlength hds
  obtain ⟨m, rfl⟩ := Nat.exists_eq_add_of_lt hi
  rw [htake, Nat.add_assoc, mean_append]
  apply mean_congr
  intro e he _
  unfold mean
  apply Finset.sum_congr rfl
  intro x _
  simp only [List.drop_left' he, List.take_left' he, List.head?_cons, Option.elim_some,
    List.append_nil]
  rw [mean_const fun e' => hlaw (e ++ x :: e')]

end Draws

/-! ### Uniforms -/

/-- The law of a uniform number. -/
noncomputable def uniform : Measure ℝ := volume.restrict (Set.Ico 0 1)

/-- The law of independent uniform numbers. -/
noncomputable def uniforms (ι : Type) [Fintype ι] : Measure (ι → ℝ) := Measure.pi fun _ => uniform

variable {a : ℝ}

theorem uniform_Ico {b : ℝ} (ha : 0 ≤ a) (hab : a ≤ b) (hb : b ≤ 1) :
    uniform.real (Set.Ico a b) = b - a := by
  have hinter : Set.Ico a b ∩ Set.Ico 0 1 = Set.Ico a b := by
    apply Set.inter_eq_left.mpr
    exact Set.Ico_subset_Ico ha hb
  unfold uniform Measure.real
  rw [Measure.restrict_apply measurableSet_Ico, hinter, Real.volume_Ico,
    ENNReal.toReal_ofReal (by linarith)]

theorem uniform_Iio (ha : 0 ≤ a) (hb : a ≤ 1) : uniform.real (Set.Iio a) = a := by
  have hinter : Set.Iio a ∩ Set.Ico 0 1 = Set.Ico 0 a := by
    ext x
    simp only [Set.mem_inter_iff, Set.mem_Iio, Set.mem_Ico]
    constructor
    · rintro ⟨hx, h0, -⟩
      exact ⟨h0, hx⟩
    · rintro ⟨h0, hx⟩
      exact ⟨hx, h0, lt_of_lt_of_le hx hb⟩
  unfold uniform Measure.real
  rw [Measure.restrict_apply measurableSet_Iio, hinter, Real.volume_Ico, sub_zero,
    ENNReal.toReal_ofReal ha]

theorem uniform_Ici (ha : 0 ≤ a) (hb : a ≤ 1) : uniform.real (Set.Ici a) = 1 - a := by
  have hinter : Set.Ici a ∩ Set.Ico 0 1 = Set.Ico a 1 := by
    ext x
    simp only [Set.mem_inter_iff, Set.mem_Ici, Set.mem_Ico]
    constructor
    · rintro ⟨hx, -, h1⟩
      exact ⟨hx, h1⟩
    · rintro ⟨hx, h1⟩
      exact ⟨hx, ha.trans hx, h1⟩
  unfold uniform Measure.real
  rw [Measure.restrict_apply measurableSet_Ici, hinter, Real.volume_Ico,
    ENNReal.toReal_ofReal (by linarith)]

theorem uniform_univ : uniform.real Set.univ = 1 := by
  unfold uniform Measure.real
  simp

/-- What holds in the unit cube decides the chance. -/
theorem uniforms_congr {ι : Type} [Fintype ι] {p q : (ι → ℝ) → Prop}
    (h : ∀ x : ι → ℝ, (∀ i, x i ∈ Set.Ico (0 : ℝ) 1) → (p x ↔ q x)) :
    (uniforms ι).real {x | p x} = (uniforms ι).real {x | q x} := by
  have hcube : uniforms ι = volume.restrict (Set.pi Set.univ fun _ => Set.Ico (0 : ℝ) 1) := by
    unfold uniforms uniform
    rw [volume_pi, Measure.restrict_pi_pi]
  have hmeasurable : MeasurableSet (Set.pi Set.univ fun _ : ι => Set.Ico (0 : ℝ) 1) :=
    MeasurableSet.univ_pi fun _ => measurableSet_Ico
  rw [hcube]
  unfold Measure.real
  rw [Measure.restrict_apply' hmeasurable, Measure.restrict_apply' hmeasurable]
  congr 2
  ext x
  constructor
  · rintro ⟨hp, hx⟩
    exact ⟨(h x fun i => hx i trivial).mp hp, hx⟩
  · rintro ⟨hq, hx⟩
    exact ⟨(h x fun i => hx i trivial).mpr hq, hx⟩

theorem uniforms_box {ι : Type} [Fintype ι] (s : ι → Set ℝ) :
    (uniforms ι).real {x | ∀ i, x i ∈ s i} = ∏ i, uniform.real (s i) := by
  have hset : {x : ι → ℝ | ∀ i, x i ∈ s i} = Set.pi Set.univ s := by
    ext x
    simp
  have : SigmaFinite uniform := by
    unfold uniform
    infer_instance
  unfold Measure.real uniforms
  rw [hset, Measure.pi_pi, ENNReal.toReal_prod]

/-- The chance of one or the other of two boxes that are apart. -/
theorem uniforms_boxes {ι : Type} [Fintype ι] {s s' : ι → Set ℝ}
    (hs' : ∀ i, MeasurableSet (s' i)) (hapart : ∃ i, Disjoint (s i) (s' i)) :
    (uniforms ι).real {x | (∀ i, x i ∈ s i) ∨ ∀ i, x i ∈ s' i} =
      ∏ i, uniform.real (s i) + ∏ i, uniform.real (s' i) := by
  have hfinite : IsFiniteMeasure (uniforms ι) := by
    unfold uniforms uniform
    infer_instance
  have hmeasurable : MeasurableSet {x : ι → ℝ | ∀ i, x i ∈ s' i} := by
    have hset : {x : ι → ℝ | ∀ i, x i ∈ s' i} = Set.pi Set.univ s' := by
      ext x
      simp
    rw [hset]
    exact MeasurableSet.univ_pi hs'
  have hdisjoint : Disjoint {x : ι → ℝ | ∀ i, x i ∈ s i} {x | ∀ i, x i ∈ s' i} := by
    obtain ⟨i, hi⟩ := hapart
    rw [Set.disjoint_left]
    intro x hx hx'
    exact Set.disjoint_left.mp hi (hx i) (hx' i)
  rw [← uniforms_box, ← uniforms_box, ← measureReal_union hdisjoint hmeasurable]
  rfl

/-- A product over `k + 1` sides, of which only the first `i`, the next one and the last count. -/
theorem prod_sides (hi : i < k) (f : ℕ → ℝ) (hf : ∀ j, i < j → j < k → f j = 1) :
    ∏ j : Fin (k + 1), f j = (∏ j ∈ Finset.range i, f j) * f i * f k := by
  obtain ⟨m, rfl⟩ := Nat.exists_eq_add_of_lt hi
  have hones : ∏ j ∈ Finset.range m, f (i + 1 + j) = 1 := by
    apply Finset.prod_eq_one
    intro j hj
    have hlt := Finset.mem_range.mp hj
    exact hf _ (by omega) (by omega)
  rw [Fin.prod_univ_eq_prod_range, Finset.prod_range_succ]
  congr 1
  rw [Nat.add_right_comm, Finset.prod_range_add, Finset.prod_range_succ, hones, mul_one]

end TyloQuant.Lib
