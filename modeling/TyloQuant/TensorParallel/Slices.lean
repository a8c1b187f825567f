import Mathlib
import TyloQuant.Lib.Outcome

/-!
# Tensor-parallel slices

`plan_tensor_parallel_slices` cuts an extent into one slice for each device: the interior
boundaries are the rounded cumulative weights, each clamped so that every slice before and after
it keeps at least one granule.  `validate_tensor_parallel_slices` says what a plan must be.

The double arithmetic is read as rational.  The products of the code are in 64 bits; one that does
not fit has no defined result, which the model keeps apart from the exceptions.

An extent need not be a multiple of the granularity.  Then the upper end of a clamp is not one
either, so a plan is valid exactly when no boundary is pulled down to it.
-/

namespace TyloQuant.TensorParallel

open Lib List

/-- A weight: a rational, or a double that is not finite. -/
abbrev Weight := Option ℚ

structure TensorParallelSlice where
  device : Int
  begin : Int
  stop : Int
deriving DecidableEq, Repr

inductive PlanError where
  | thrown (message : String)
  | overflow
deriving DecidableEq, Repr

/-! ### The code -/

def int64Max : Int := 2 ^ 63 - 1

/-- `std::llround`: halves go away from zero. -/
def llround (x : ℚ) : Int := if 0 ≤ x then ⌊x + 1 / 2⌋ else ⌈x - 1 / 2⌉

/-- `std::clamp`. -/
def clamp (value low high : Int) : Int := if value < low then low else min high value

/-- A product in 64 bits, of factors that are not negative. -/
def product (a b : Int) : Except PlanError Int :=
  if a * b > int64Max then .error .overflow else .ok (a * b)

/-- The check of the weights, and their sum. -/
def sumWeights : List Weight → Except PlanError ℚ
  | [] => .ok 0
  | none :: _ => .error (.thrown "tensor-parallel split weights must be finite and positive")
  | some value :: rest =>
    if value ≤ 0 then
      .error (.thrown "tensor-parallel split weights must be finite and positive")
    else (sumWeights rest).map (value + ·)

/-- `normalized`. -/
def normalize (count : Nat) (weights : List Weight) : Except PlanError (List ℚ) :=
  if weights = [] then .ok (List.replicate count (1 / count))
  else (sumWeights weights).map fun sum => weights.map fun value => value.getD 0 / sum

/-- The interior boundaries from `index` on, after `previous`, for the weights that are left. -/
def planBoundaries (extent granularity : Int) (count : Nat) :
    Nat → Int → ℚ → List ℚ → Except PlanError (List Int)
  | _, _, _, [] => .ok []
  | index, previous, cumulative, weight :: rest =>
    let target := (cumulative + weight) * extent
    match product (llround (target / granularity)) granularity with
    | .error e => .error e
    | .ok boundary =>
      let minimum := previous + granularity
      let maximum := extent - ((count : Int) - index) * granularity
      let boundary := clamp boundary minimum maximum
      (planBoundaries extent granularity count (index + 1) boundary (cumulative + weight)
        rest).map (boundary :: ·)

/-- The slices between a boundary and those that follow it. -/
def slicesFrom : List Int → Int → List Int → List TensorParallelSlice
  | device :: devices, begin, stop :: stops =>
    ⟨device, begin, stop⟩ :: slicesFrom devices stop stops
  | _, _, _ => []

/-- `plan_tensor_parallel_slices`. -/
def planTensorParallelSlices (extent granularity : Int) (devices : List Int)
    (weights : List Weight) : Except PlanError (List TensorParallelSlice) :=
  if extent ≤ 0 then .error (.thrown "tensor-parallel extent must be positive")
  else if granularity ≤ 0 then .error (.thrown "tensor-parallel granularity must be positive")
  else if devices = [] then .error (.thrown "tensor-parallel device list must not be empty")
  else if weights ≠ [] ∧ weights.length ≠ devices.length then
    .error (.thrown "tensor-parallel split count must match device count")
  else do
    let least ← product devices.length granularity
    if extent < least then
      .error (.thrown "tensor-parallel extent is too small for the device count")
    else do
      let normalized ← normalize devices.length weights
      let boundaries ←
        planBoundaries extent granularity devices.length 1 0 0 normalized.dropLast
      pure (slicesFrom devices 0 (boundaries ++ [extent]))

/-- The loop of `validate_tensor_parallel_slices`, after `previous`. -/
def validateFrom (granularity : Int) :
    Option TensorParallelSlice → List TensorParallelSlice → Except PlanError Unit
  | _, [] => .ok ()
  | previous, slice :: rest =>
    if slice.begin ≥ slice.stop then
      .error (.thrown "tensor-parallel slice must not be empty")
    else if (previous.any fun before => before.stop ≠ slice.begin) then
      .error (.thrown "tensor-parallel slices must be contiguous")
    else if rest ≠ [] ∧
        (slice.begin.tmod granularity ≠ 0 ∨ slice.stop.tmod granularity ≠ 0) then
      .error (.thrown "interior tensor-parallel boundaries are misaligned")
    else validateFrom granularity (some slice) rest

/-- `validate_tensor_parallel_slices`. -/
def validateTensorParallelSlices (slices : List TensorParallelSlice) (extent granularity : Int) :
    Except PlanError Unit :=
  if slices = [] ∨ (slices.head?.any fun slice => slice.begin ≠ 0) ∨
      (slices.getLast?.any fun slice => slice.stop ≠ extent) then
    .error (.thrown "tensor-parallel slices do not cover the full extent")
  else validateFrom granularity none slices

/-! ### What is valid -/

/-- Boundaries that cut from `begin` on: each slice has a length, and all but the last begin and
    end at multiples. -/
inductive Cut (granularity : Int) : Int → List Int → Prop where
  | last {begin stop : Int} : begin < stop → Cut granularity begin [stop]
  | cons {begin stop : Int} {stops : List Int} : begin < stop → granularity ∣ begin →
      granularity ∣ stop → Cut granularity stop stops → Cut granularity begin (stop :: stops)

/-- What a plan of an extent should be. -/
structure Partitions (granularity extent : Int) (slices : List TensorParallelSlice) : Prop where
  begins : slices.head?.map TensorParallelSlice.begin = some 0
  stops : slices.getLast?.map TensorParallelSlice.stop = some extent
  nonempty : ∀ slice ∈ slices, slice.begin < slice.stop
  contiguous : slices.IsChain fun slice next => slice.stop = next.begin
  aligned : ∀ slice ∈ slices.dropLast, granularity ∣ slice.begin ∧ granularity ∣ slice.stop

theorem validateFrom_cons {granularity : Int} {previous : Option TensorParallelSlice}
    {slice : TensorParallelSlice} {rest : List TensorParallelSlice} :
    validateFrom granularity previous (slice :: rest) = .ok () ↔
      slice.begin < slice.stop ∧ (∀ before ∈ previous, before.stop = slice.begin) ∧
        (rest ≠ [] → granularity ∣ slice.begin ∧ granularity ∣ slice.stop) ∧
        validateFrom granularity (some slice) rest = .ok () := by
  rw [validateFrom, guard_eq_ok, guard_eq_ok, guard_eq_ok]
  have hany : (previous.any fun before => before.stop ≠ slice.begin) = true ↔
      ∃ before ∈ previous, before.stop ≠ slice.begin := by
    cases previous <;> simp
  rw [hany]
  refine and_congr (by omega) (and_congr ?_ (and_congr ?_ Iff.rfl))
  · simp only [ne_eq, not_exists, not_and, not_not]
  · simp only [ne_eq, ← Int.dvd_iff_tmod_eq_zero]
    tauto

variable {slices : List TensorParallelSlice}

theorem validateFrom_iff {granularity : Int} :
    ∀ {previous : Option TensorParallelSlice}, validateFrom granularity previous slices = .ok () ↔
        (∀ before ∈ previous, ∀ slice ∈ slices.head?, before.stop = slice.begin) ∧
        (∀ slice ∈ slices, slice.begin < slice.stop) ∧
        (slices.IsChain fun slice next => slice.stop = next.begin) ∧
        ∀ slice ∈ slices.dropLast, granularity ∣ slice.begin ∧ granularity ∣ slice.stop := by
  induction slices with
  | nil =>
    intro previous
    simp [validateFrom]
  | cons slice rest ih =>
    intro previous
    rw [validateFrom_cons, ih]
    cases rest with
    | nil => simp [and_comm]
    | cons next rest =>
      simp only [head?_cons, Option.mem_some_iff, forall_eq', dropLast_cons_cons,
        forall_mem_cons, isChain_cons_cons, ne_eq, reduceCtorEq, not_false_eq_true,
        true_implies]
      tauto

theorem accepts_iff {extent granularity : Int} :
    validateTensorParallelSlices slices extent granularity = .ok () ↔
      Partitions granularity extent slices := by
  rw [validateTensorParallelSlices, guard_eq_ok, validateFrom_iff]
  cases slices with
  | nil => exact ⟨fun h => absurd (Or.inl rfl) h.1, fun h => by cases h.begins⟩
  | cons slice rest =>
    have hlast : ∃ last, (slice :: rest).getLast? = some last :=
      ⟨_, getLast?_eq_some_getLast (cons_ne_nil _ _)⟩
    obtain ⟨last, hlast⟩ := hlast
    rw [hlast]
    constructor
    · rintro ⟨hends, -, hnonempty, hchain, haligned⟩
      simp only [reduceCtorEq, head?_cons, Option.any_some, ne_eq, decide_eq_true_eq,
        false_or, not_or, not_not] at hends
      exact ⟨by rw [head?_cons, Option.map_some, hends.1],
        by rw [hlast, Option.map_some, hends.2], hnonempty, hchain, haligned⟩
    · rintro ⟨hbegins, hstops, hnonempty, hchain, haligned⟩
      rw [hlast] at hstops
      refine ⟨?_, fun _ h => (by cases h), hnonempty, hchain, haligned⟩
      simp only [reduceCtorEq, head?_cons, Option.any_some, ne_eq, decide_eq_true_eq,
        false_or, not_or, not_not]
      exact ⟨Option.some.inj hbegins, Option.some.inj hstops⟩

variable {devices : List Int} {stops : List Int}

theorem slicesFrom_ne_nil (begin : Int) {stop : Int}
    (hlength : devices.length = (stop :: stops).length) :
    ∃ device rest, devices = device :: rest ∧ slicesFrom devices begin (stop :: stops) =
        ⟨device, begin, stop⟩ :: slicesFrom rest stop stops := by
  cases devices with
  | nil => cases hlength
  | cons device rest => exact ⟨device, rest, rfl, rfl⟩

/-- The slices between boundaries are valid exactly when the boundaries cut. -/
theorem validateFrom_slicesFrom {granularity : Int} :
    ∀ {devices : List Int} {begin stop : Int} {previous : Option TensorParallelSlice},
      devices.length = (stop :: stops).length →
      (∀ before ∈ previous, before.stop = begin) →
      (validateFrom granularity previous (slicesFrom devices begin (stop :: stops)) = .ok () ↔
        Cut granularity begin (stop :: stops)) := by
  induction stops with
  | nil =>
    intro devices begin stop previous hlength hprevious
    obtain ⟨device, rest, rfl, hslices⟩ := slicesFrom_ne_nil begin hlength
    have hempty : slicesFrom rest stop [] = [] := by cases rest <;> rfl
    rw [hslices, hempty, validateFrom_cons]
    constructor
    · rintro ⟨hlt, -⟩
      exact .last hlt
    · intro h
      cases h with
      | last hlt => exact ⟨hlt, hprevious, fun h => absurd rfl h, rfl⟩
      | cons _ _ _ hrest => cases hrest
  | cons next stops ih =>
    intro devices begin stop previous hlength hprevious
    obtain ⟨device, rest, rfl, hslices⟩ := slicesFrom_ne_nil begin hlength
    have hlength' : rest.length = (next :: stops).length := Nat.succ.inj hlength
    obtain ⟨_, _, -, hrest⟩ := slicesFrom_ne_nil stop hlength'
    have hne : slicesFrom rest stop (next :: stops) ≠ [] := by
      rw [hrest]
      exact cons_ne_nil _ _
    rw [hslices, validateFrom_cons, ih hlength' fun before hbefore => by
      cases hbefore
      rfl]
    constructor
    · rintro ⟨hlt, -, haligned, hcut⟩
      exact .cons hlt (haligned hne).1 (haligned hne).2 hcut
    · intro h
      cases h with
      | cons hlt hbegin hstop hcut => exact ⟨hlt, hprevious, fun _ => ⟨hbegin, hstop⟩, hcut⟩

variable {boundaries : List Int}

theorem getLast_slicesFrom (extent : Int) :
    ∀ {devices : List Int} (begin : Int), devices.length = boundaries.length + 1 →
      (slicesFrom devices begin (boundaries ++ [extent])).getLast?.map
        TensorParallelSlice.stop = some extent := by
  induction boundaries with
  | nil =>
    intro devices begin hlength
    obtain ⟨device, rest, rfl, hslices⟩ := slicesFrom_ne_nil begin
      (show devices.length = (extent :: ([] : List Int)).length from hlength)
    have hempty : slicesFrom rest extent [] = [] := by cases rest <;> rfl
    rw [List.nil_append, hslices, hempty]
    rfl
  | cons boundary boundaries ih =>
    intro devices begin hlength
    have hlength' : devices.length = (boundary :: (boundaries ++ [extent])).length := by
      rw [hlength, length_cons, length_cons, length_append]
      rfl
    obtain ⟨device, rest, rfl, hslices⟩ := slicesFrom_ne_nil begin hlength'
    have hlast := ih boundary (Nat.succ.inj hlength)
    rw [cons_append, hslices]
    cases hrest : slicesFrom rest boundary (boundaries ++ [extent]) with
    | nil =>
      rw [hrest] at hlast
      cases hlast
    | cons slice slices =>
      rw [hrest] at hlast
      rw [getLast?_cons_cons]
      exact hlast

theorem validate_slicesFrom {granularity extent : Int}
    (hlength : devices.length = boundaries.length + 1) :
    validateTensorParallelSlices (slicesFrom devices 0 (boundaries ++ [extent])) extent
        granularity = .ok () ↔
      Cut granularity 0 (boundaries ++ [extent]) := by
  have hends := getLast_slicesFrom extent 0 hlength
  cases hstops : boundaries ++ [extent] with
  | nil => simp at hstops
  | cons stop stops =>
    have hlength' : devices.length = (stop :: stops).length := by
      rw [← hstops, hlength, length_append]
      rfl
    rw [hstops] at hends
    have hiff : validateFrom granularity none (slicesFrom devices 0 (stop :: stops)) = .ok () ↔
        Cut granularity 0 (stop :: stops) :=
      validateFrom_slicesFrom hlength' fun _ h => by cases h
    rw [← hiff, validateTensorParallelSlices, if_neg]
    obtain ⟨device, rest, -, hslices⟩ := slicesFrom_ne_nil 0 hlength'
    obtain ⟨last, hlast, hstop⟩ := Option.map_eq_some_iff.mp hends
    rw [hlast, hslices]
    simp [hstop]

/-! ### Boundaries -/

theorem llround_le {x : ℚ} {n : Int} (h : x ≤ n) : llround x ≤ n := by
  rw [llround]
  split
  · rw [← Int.lt_add_one_iff, Int.floor_lt]
    push_cast
    linarith
  · rw [Int.ceil_le]
    linarith

variable {high low : Int}

theorem clamp_spec (value : Int) (h : low ≤ high) :
    low ≤ clamp value low high ∧ clamp value low high ≤ high ∧
      (clamp value low high = value ∨ clamp value low high = low ∨
        high < value ∧ clamp value low high = high) := by
  rw [clamp]
  split <;> omega

theorem clamp_of_lt {value : Int} (h : low ≤ high) (hvalue : high < value) :
    clamp value low high = high := by
  rw [clamp, if_neg (by omega)]
  omega

/-- The boundaries for these weights are not pulled down, each with as many slices behind it as
    there are weights left. -/
def FitsFrom (extent granularity : Int) : ℚ → List ℚ → Prop
  | _, [] => True
  | cumulative, weight :: rest =>
    llround ((cumulative + weight) * extent / granularity) * granularity ≤
        extent - ((rest.length : Int) + 1) * granularity ∧
      FitsFrom extent granularity (cumulative + weight) rest

/-- No rounded boundary lies beyond the extent. -/
def WithinFrom (extent granularity : Int) : ℚ → List ℚ → Prop
  | _, [] => True
  | cumulative, weight :: rest =>
    llround ((cumulative + weight) * extent / granularity) * granularity ≤ extent ∧
      WithinFrom extent granularity (cumulative + weight) rest

theorem planBoundaries_cons {extent granularity : Int} {count index : Nat} {previous : Int}
    {cumulative weight : ℚ} {rest : List ℚ} :
    planBoundaries extent granularity count index previous cumulative (weight :: rest) =
        .ok boundaries ↔
      llround ((cumulative + weight) * extent / granularity) * granularity ≤ int64Max ∧
        ∃ stops, planBoundaries extent granularity count (index + 1)
            (clamp (llround ((cumulative + weight) * extent / granularity) * granularity)
              (previous + granularity) (extent - ((count : Int) - index) * granularity))
            (cumulative + weight) rest = .ok stops ∧
          boundaries = clamp
            (llround ((cumulative + weight) * extent / granularity) * granularity)
            (previous + granularity) (extent - ((count : Int) - index) * granularity) :: stops := by
  rw [planBoundaries]
  dsimp only
  rw [product]
  by_cases hfit : llround ((cumulative + weight) * extent / granularity) * granularity > int64Max
  · rw [if_pos hfit]
    constructor
    · intro h
      cases h
    · intro h
      omega
  · rw [if_neg hfit]
    dsimp only
    constructor
    · intro h
      obtain ⟨stops, hstops, rfl⟩ := map_eq_ok.mp h
      exact ⟨by omega, stops, hstops, rfl⟩
    · rintro ⟨-, stops, hstops, rfl⟩
      exact map_eq_ok.mpr ⟨stops, hstops, rfl⟩

variable {extent granularity : Int} {count : Nat}

theorem planBoundaries_cut (hgranularity : 0 < granularity) (hextent : extent ≤ int64Max)
    {weights : List ℚ} :
    ∀ {index : Nat} {previous : Int} {cumulative : ℚ}, granularity ∣ previous →
      previous + ((weights.length : Int) + 1) * granularity ≤ extent →
      count = index + weights.length →
      (granularity ∣ extent ∧ WithinFrom extent granularity cumulative weights ∨
        FitsFrom extent granularity cumulative weights) →
      ∃ boundaries, planBoundaries extent granularity count index previous cumulative weights =
          .ok boundaries ∧ boundaries.length = weights.length ∧
        Cut granularity previous (boundaries ++ [extent]) := by
  induction weights with
  | nil =>
    intro index previous cumulative hprevious hroom hcount _
    refine ⟨[], rfl, rfl, .last ?_⟩
    rw [length_nil, Nat.cast_zero] at hroom
    linarith
  | cons weight rest ih =>
    intro index previous cumulative hprevious hroom hcount hfits
    rw [length_cons] at hroom hcount
    push_cast at hroom
    obtain ⟨rounded, hrounded⟩ : ∃ rounded, rounded =
        llround ((cumulative + weight) * extent / granularity) * granularity := ⟨_, rfl⟩
    have hmaximum : extent - ((count : Int) - index) * granularity =
        extent - ((rest.length : Int) + 1) * granularity := by
      rw [hcount]
      push_cast
      ring
    obtain ⟨boundary, hboundary⟩ : ∃ boundary, boundary = clamp rounded (previous + granularity)
        (extent - ((rest.length : Int) + 1) * granularity) := ⟨_, rfl⟩
    have hspec := clamp_spec rounded
      (show previous + granularity ≤ extent - ((rest.length : Int) + 1) * granularity by linarith)
    rw [← hboundary] at hspec
    obtain ⟨hlow, hhigh, hcases⟩ := hspec
    have hmultiple : granularity ∣ rounded := hrounded ▸ Dvd.intro_left _ rfl
    have hnext : granularity ∣ previous + granularity := hprevious.add (dvd_refl _)
    have hleft : 0 ≤ ((rest.length : Int) + 1) * granularity := by positivity
    have hbehind : granularity ∣ boundary ∧ rounded ≤ int64Max ∧
        (granularity ∣ extent ∧ WithinFrom extent granularity (cumulative + weight) rest ∨
          FitsFrom extent granularity (cumulative + weight) rest) := by
      rcases hfits with ⟨hdvd, hwithin, hrest⟩ | ⟨hfit, hrest⟩
      · rw [← hrounded] at hwithin
        refine ⟨?_, by omega, Or.inl ⟨hdvd, hrest⟩⟩
        rcases hcases with h | h | ⟨-, h⟩
        · exact h ▸ hmultiple
        · exact h ▸ hnext
        · rw [h]
          exact hdvd.sub (Dvd.intro_left _ rfl)
      · rw [← hrounded] at hfit
        refine ⟨?_, by omega, Or.inr hrest⟩
        rcases hcases with h | h | ⟨hpulled, -⟩
        · exact h ▸ hmultiple
        · exact h ▸ hnext
        · omega
    obtain ⟨hdvd, hproduct, hrest⟩ := hbehind
    obtain ⟨boundaries, hplan, hlength, hcut⟩ := ih hdvd (by linarith)
      (show count = index + 1 + rest.length by omega) hrest
    refine ⟨boundary :: boundaries, planBoundaries_cons.mpr ⟨hrounded ▸ hproduct, boundaries, ?_,
      ?_⟩, by rw [length_cons, hlength, length_cons],
      .cons (by linarith) hprevious hdvd hcut⟩
    · rw [← hrounded, hmaximum, ← hboundary]
      exact hplan
    · rw [← hrounded, hmaximum, ← hboundary]

/-- Where the extent is not a multiple, a boundary that is pulled down is none either. -/
theorem planBoundaries_not_cut (hextent : ¬granularity ∣ extent)
    {weights : List ℚ} :
    ∀ {index : Nat} {previous : Int} {cumulative : ℚ} {boundaries : List Int},
      previous + ((weights.length : Int) + 1) * granularity ≤ extent →
      count = index + weights.length →
      ¬FitsFrom extent granularity cumulative weights →
      planBoundaries extent granularity count index previous cumulative weights = .ok boundaries →
      ¬Cut granularity previous (boundaries ++ [extent]) := by
  induction weights with
  | nil => exact fun _ _ hfits _ => absurd trivial hfits
  | cons weight rest ih =>
    intro index previous cumulative boundaries hroom hcount hfits hplan hcut
    obtain ⟨-, stops, hstops, rfl⟩ := planBoundaries_cons.mp hplan
    rw [length_cons] at hroom hcount
    push_cast at hroom
    have hmaximum : extent - ((count : Int) - index) * granularity =
        extent - ((rest.length : Int) + 1) * granularity := by
      rw [hcount]
      push_cast
      ring
    have hbounds : previous + granularity ≤ extent - ((rest.length : Int) + 1) * granularity := by
      linarith
    rw [hmaximum] at hstops hcut
    obtain ⟨-, hhigh, -⟩ := clamp_spec
      (llround ((cumulative + weight) * extent / granularity) * granularity) hbounds
    have hinner : granularity ∣ clamp
        (llround ((cumulative + weight) * extent / granularity) * granularity)
        (previous + granularity) (extent - ((rest.length : Int) + 1) * granularity) ∧
          Cut granularity (clamp
            (llround ((cumulative + weight) * extent / granularity) * granularity)
            (previous + granularity) (extent - ((rest.length : Int) + 1) * granularity))
            (stops ++ [extent]) := by
      rw [cons_append] at hcut
      cases hstopsEq : stops ++ [extent] with
      | nil => simp at hstopsEq
      | cons stop more =>
        rw [hstopsEq] at hcut
        cases hcut with
        | cons _ _ hdvd hrest => exact ⟨hdvd, hrest⟩
    by_cases hfit : llround ((cumulative + weight) * extent / granularity) * granularity ≤
        extent - ((rest.length : Int) + 1) * granularity
    · exact ih (by linarith) (by omega) (fun hrest => hfits ⟨hfit, hrest⟩) hstops hinner.2
    · have hpulled := hinner.1
      rw [clamp_of_lt hbounds (not_le.mp hfit)] at hpulled
      refine hextent ?_
      have hsum := hpulled.add (Dvd.intro_left ((rest.length : Int) + 1) rfl)
      rwa [sub_add_cancel] at hsum

theorem length_planBoundaries {weights : List ℚ} : ∀ {index : Nat} {previous : Int}
    {cumulative : ℚ} {boundaries : List Int},
    planBoundaries extent granularity count index previous cumulative weights = .ok boundaries →
      boundaries.length = weights.length := by
  induction weights with
  | nil =>
    intro index previous cumulative boundaries h
    cases h
    rfl
  | cons weight rest ih =>
    intro index previous cumulative boundaries h
    obtain ⟨-, stops, hstops, rfl⟩ := planBoundaries_cons.mp h
    rw [length_cons, ih hstops, length_cons]

variable {e : PlanError}

/-- Nothing but an overflow keeps the boundaries from being planned. -/
theorem planBoundaries_error {weights : List ℚ} :
    ∀ {index : Nat} {previous : Int} {cumulative : ℚ},
      planBoundaries extent granularity count index previous cumulative weights = .error e →
      e = .overflow := by
  induction weights with
  | nil =>
    intro index previous cumulative h
    cases h
  | cons weight rest ih =>
    intro index previous cumulative h
    rw [planBoundaries] at h
    dsimp only at h
    rw [product] at h
    split at h
    · rename_i hproduct
      split at hproduct
      · cases hproduct
        cases h
        rfl
      · cases hproduct
    · rename_i boundary _
      cases hrest : planBoundaries extent granularity count (index + 1)
          (clamp boundary (previous + granularity)
            (extent - ((count : Int) - index) * granularity)) (cumulative + weight) rest with
      | error e' =>
        rw [hrest] at h
        cases h
        exact ih hrest
      | ok stops =>
        rw [hrest] at h
        cases h

/-! ### Shares -/

/-- The share of the extent before the boundary `i`. -/
def share (normalized : List ℚ) (i : Nat) : ℚ := (normalized.take i).sum

/-- No rounded boundary lies beyond the place that leaves a granule for every slice behind it. -/
def Fits (extent granularity : Int) (normalized : List ℚ) : Prop :=
  ∀ i, 1 ≤ i → i < normalized.length →
    llround (share normalized i * extent / granularity) * granularity ≤
      extent - ((normalized.length : Int) - i) * granularity

theorem fitsFrom_iff {weights : List ℚ} : ∀ {cumulative : ℚ},
    FitsFrom extent granularity cumulative weights ↔ ∀ i < weights.length,
        llround ((cumulative + (weights.take (i + 1)).sum) * extent / granularity) * granularity ≤
          extent - ((weights.length : Int) - i) * granularity := by
  induction weights with
  | nil => simp [FitsFrom]
  | cons weight rest ih =>
    intro cumulative
    rw [FitsFrom, ih]
    constructor
    · rintro ⟨hfirst, hrest⟩ i hi
      cases i with
      | zero =>
        rw [take_succ_cons, take_zero, sum_singleton, length_cons]
        push_cast
        simpa using hfirst
      | succ i =>
        have h := hrest i (by simpa using hi)
        rw [take_succ_cons, sum_cons, ← add_assoc, length_cons]
        push_cast
        linarith
    · intro h
      constructor
      · have hfirst := h 0 (by simp)
        rw [take_succ_cons, take_zero, sum_singleton, length_cons] at hfirst
        push_cast at hfirst
        simpa using hfirst
      · intro i hi
        have hnext := h (i + 1) (by simpa using hi)
        rw [take_succ_cons, sum_cons, ← add_assoc, length_cons] at hnext
        push_cast at hnext
        linarith

theorem withinFrom_of_sum_le (hgranularity : 0 < granularity) (hdvd : granularity ∣ extent)
    (hextent : 0 ≤ extent) {weights : List ℚ} : ∀ {cumulative : ℚ},
    (∀ weight ∈ weights, 0 ≤ weight) → cumulative + weights.sum ≤ 1 →
    WithinFrom extent granularity cumulative weights := by
  obtain ⟨granules, rfl⟩ := hdvd
  induction weights with
  | nil => exact fun _ _ => trivial
  | cons weight rest ih =>
    intro cumulative hnonneg hsum
    rw [sum_cons] at hsum
    have hrest : ∀ w ∈ rest, 0 ≤ w := fun w hw => hnonneg w (mem_cons_of_mem _ hw)
    have hle : cumulative + weight ≤ 1 := by
      have := sum_nonneg hrest
      linarith
    refine ⟨?_, ih hrest (by linarith)⟩
    have hgranules : 0 ≤ granules := nonneg_of_mul_nonneg_right hextent hgranularity
    have hround : llround ((cumulative + weight) * ((granularity * granules : Int) : ℚ) /
        granularity) ≤ granules := by
      apply llround_le
      have hpos : (0 : ℚ) < granularity := by exact_mod_cast hgranularity
      have hcast : (0 : ℚ) ≤ granules := by exact_mod_cast hgranules
      have hcancel : (cumulative + weight) * ((granularity * granules : Int) : ℚ) / granularity =
          (cumulative + weight) * granules := by
        push_cast
        field_simp
      rw [hcancel]
      exact mul_le_of_le_one_left hcast hle
    calc _ ≤ granules * granularity := by
          exact Int.mul_le_mul_of_nonneg_right hround hgranularity.le
      _ = granularity * granules := mul_comm _ _

/-! ### Weights -/

variable {weights : List Weight}

theorem sumWeights_ok : ∀ {sum : ℚ}, sumWeights weights = .ok sum →
    sum = (weights.map fun value => value.getD 0).sum ∧ ∀ value ∈ weights, 0 < value.getD 0 := by
  induction weights with
  | nil =>
    intro sum h
    cases h
    exact ⟨rfl, fun _ h => absurd h not_mem_nil⟩
  | cons value rest ih =>
    intro sum h
    cases value with
    | none => cases h
    | some value =>
      rw [sumWeights, guard_eq_ok, map_eq_ok] at h
      obtain ⟨hpos, rest', hrest, rfl⟩ := h
      obtain ⟨rfl, hall⟩ := ih hrest
      exact ⟨rfl, forall_mem_cons.mpr ⟨not_le.mp hpos, hall⟩⟩

variable {normalized : List ℚ}

/-- Normalized weights are shares of the whole. -/
theorem normalize_spec {devices : Nat} (hdevices : 0 < devices)
    (hlength : weights = [] ∨ weights.length = devices)
    (h : normalize devices weights = .ok normalized) :
    normalized.length = devices ∧ (∀ weight ∈ normalized, 0 ≤ weight) ∧ normalized.sum = 1 := by
  rw [normalize] at h
  split at h
  · cases h
    refine ⟨length_replicate, fun weight hweight => ?_, ?_⟩
    · rw [eq_of_mem_replicate hweight]
      positivity
    · have hne : (devices : ℚ) ≠ 0 := by exact_mod_cast hdevices.ne'
      rw [sum_replicate, nsmul_eq_mul]
      field_simp
  · rename_i hne
    obtain ⟨sum, hsum, rfl⟩ := map_eq_ok.mp h
    obtain ⟨rfl, hpos⟩ := sumWeights_ok hsum
    have htotal : 0 < (weights.map fun value => value.getD 0).sum := by
      refine sum_pos _ (fun x hx => ?_) (by simpa using hne)
      obtain ⟨value, hvalue, rfl⟩ := mem_map.mp hx
      exact hpos value hvalue
    refine ⟨by rw [length_map]; exact hlength.resolve_left hne, fun weight hweight => ?_, ?_⟩
    · obtain ⟨value, hvalue, rfl⟩ := mem_map.mp hweight
      exact div_nonneg (hpos value hvalue).le htotal.le
    · simp only [div_eq_mul_inv]
      rw [sum_map_mul_right]
      exact mul_inv_cancel₀ htotal.ne'

theorem sum_dropLast_le {weights : List ℚ} (h : ∀ weight ∈ weights, 0 ≤ weight) :
    weights.dropLast.sum ≤ weights.sum := by
  rcases weights.eq_nil_or_concat with rfl | ⟨before, last, rfl⟩
  · exact le_rfl
  · have hlast := h last (by simp)
    rw [concat_eq_append, dropLast_concat, sum_append, sum_singleton]
    linarith

theorem fitsFrom_dropLast :
    FitsFrom extent granularity 0 normalized.dropLast ↔ Fits extent granularity normalized := by
  rw [fitsFrom_iff, length_dropLast]
  have hstep : ∀ i, i + 1 < normalized.length →
      (((normalized.dropLast.take (i + 1)).sum = share normalized (i + 1)) ∧
        ((normalized.length - 1 : Nat) : Int) - i = (normalized.length : Int) - (i + 1 : Nat)) := by
    intro i hi
    constructor
    · rw [share, dropLast_eq_take, take_take, min_eq_left (by omega)]
    · omega
  constructor
  · intro h i hi hlt
    obtain ⟨j, rfl⟩ : ∃ j, i = j + 1 := ⟨i - 1, by omega⟩
    have hj := h j (by omega)
    rwa [zero_add, (hstep j hlt).1, (hstep j hlt).2] at hj
  · intro h i hi
    have hlt : i + 1 < normalized.length := by omega
    rw [zero_add, (hstep i hlt).1, (hstep i hlt).2]
    exact h (i + 1) (by omega) hlt

/-! ### Result -/

/-- A plan that is returned is valid, and no product overflows. -/
def PlansValid (extent granularity : Int) (devices : List Int) (weights : List Weight) : Prop :=
  match planTensorParallelSlices extent granularity devices weights with
  | .ok slices => validateTensorParallelSlices slices extent granularity = .ok ()
  | .error (.thrown _) => True
  | .error .overflow => False

theorem PlansValid.of_eq_ok
    (h : planTensorParallelSlices extent granularity devices weights = .ok slices) :
    PlansValid extent granularity devices weights ↔
      validateTensorParallelSlices slices extent granularity = .ok () := by
  rw [PlansValid, h]

theorem PlansValid.of_eq_thrown {message : String}
    (h : planTensorParallelSlices extent granularity devices weights = .error (.thrown message)) :
    PlansValid extent granularity devices weights := by
  rw [PlansValid, h]
  trivial

theorem PlansValid.of_eq_overflow
    (h : planTensorParallelSlices extent granularity devices weights = .error .overflow) :
    ¬PlansValid extent granularity devices weights := by
  rw [PlansValid, h]
  exact id

theorem sumWeights_error (h : sumWeights weights = .error e) : ∃ message, e = .thrown message := by
  induction weights generalizing e with
  | nil => cases h
  | cons value rest ih =>
    cases value with
    | none =>
      cases h
      exact ⟨_, rfl⟩
    | some value =>
      rw [sumWeights] at h
      split at h
      · cases h
        exact ⟨_, rfl⟩
      · cases hrest : sumWeights rest with
        | error e' =>
          rw [hrest] at h
          cases h
          exact ih hrest
        | ok sum =>
          rw [hrest] at h
          cases h

theorem normalize_error {devices : Nat} (h : normalize devices weights = .error e) :
    ∃ message, e = .thrown message := by
  rw [normalize] at h
  split at h
  · cases h
  · cases hsum : sumWeights weights with
    | error e' =>
      rw [hsum] at h
      cases h
      exact sumWeights_error hsum
    | ok sum =>
      rw [hsum] at h
      cases h

/-- What makes a plan valid, for devices that the extent has room for. -/
def Suits (extent granularity : Int) (devices : List Int) (weights : List Weight) : Prop :=
  (devices.length : Int) * granularity ≤ int64Max ∧
    ((devices.length : Int) * granularity ≤ extent → ∀ normalized,
      normalize devices.length weights = .ok normalized →
        granularity ∣ extent ∨ Fits extent granularity normalized)

theorem plansValid_iff_suits (hmax : extent ≤ int64Max) (hextent : 0 < extent)
    (hgranularity : 0 < granularity) (hdevices : devices ≠ [])
    (hlength : weights = [] ∨ weights.length = devices.length) :
    PlansValid extent granularity devices weights ↔ Suits extent granularity devices weights := by
  have hcount : 0 < devices.length := length_pos_iff.mpr hdevices
  have hmatch : ¬(weights ≠ [] ∧ weights.length ≠ devices.length) := fun h =>
    h.2 (hlength.resolve_left h.1)
  have hplan := planTensorParallelSlices.eq_def extent granularity devices weights
  rw [if_neg (by omega), if_neg (by omega), if_neg hdevices, if_neg hmatch] at hplan
  by_cases hproduct : (devices.length : Int) * granularity > int64Max
  · rw [product, if_pos hproduct] at hplan
    exact iff_of_false (PlansValid.of_eq_overflow hplan) fun h => absurd h.1 (not_le.mpr hproduct)
  rw [product, if_neg hproduct] at hplan
  by_cases hroom : extent < (devices.length : Int) * granularity
  · refine iff_of_true (PlansValid.of_eq_thrown (hplan.trans (if_pos hroom))) ⟨not_lt.mp hproduct, ?_⟩
    exact fun h => absurd h (not_le.mpr hroom)
  have hplan := hplan.trans (if_neg hroom)
  cases hnormalize : normalize devices.length weights with
  | error e =>
    obtain ⟨message, rfl⟩ := normalize_error hnormalize
    rw [hnormalize] at hplan
    refine iff_of_true (PlansValid.of_eq_thrown hplan) ⟨not_lt.mp hproduct, fun _ _ h => ?_⟩
    rw [hnormalize] at h
    cases h
  | ok normalized =>
    obtain ⟨hsize, hnonneg, hsum⟩ := normalize_spec hcount hlength hnormalize
    have hlast : (normalized.dropLast.length : Int) + 1 = devices.length := by
      rw [length_dropLast]
      omega
    have hbegin : (0 : Int) + ((normalized.dropLast.length : Int) + 1) * granularity ≤ extent := by
      rw [hlast, zero_add]
      exact not_lt.mp hroom
    have hindex : devices.length = 1 + normalized.dropLast.length := by omega
    have hplan : planTensorParallelSlices extent granularity devices weights =
        planBoundaries extent granularity devices.length 1 0 0 normalized.dropLast >>=
          fun boundaries => pure (slicesFrom devices 0 (boundaries ++ [extent])) := by
      rw [hplan, hnormalize]
      rfl
    have hsuits : Suits extent granularity devices weights ↔
        granularity ∣ extent ∨ Fits extent granularity normalized := by
      constructor
      · intro h
        exact h.2 (not_lt.mp hroom) normalized hnormalize
      · refine fun h => ⟨not_lt.mp hproduct, fun _ normalized' h' => ?_⟩
        rw [hnormalize] at h'
        cases h'
        exact h
    rw [hsuits]
    constructor
    · intro hvalid
      by_contra hnot
      rw [not_or] at hnot
      cases hboundaries :
          planBoundaries extent granularity devices.length 1 0 0 normalized.dropLast with
      | error e =>
        obtain rfl := planBoundaries_error hboundaries
        rw [hboundaries] at hplan
        exact PlansValid.of_eq_overflow hplan hvalid
      | ok boundaries =>
        rw [hboundaries] at hplan
        have hlong : devices.length = boundaries.length + 1 := by
          rw [hindex, length_planBoundaries hboundaries, add_comm]
        rw [PlansValid.of_eq_ok hplan, validate_slicesFrom hlong] at hvalid
        exact planBoundaries_not_cut hnot.1 hbegin hindex
          (fun h => hnot.2 (fitsFrom_dropLast.mp h)) hboundaries hvalid
    · intro hfits
      have hfits' : granularity ∣ extent ∧ WithinFrom extent granularity 0 normalized.dropLast ∨
          FitsFrom extent granularity 0 normalized.dropLast := by
        rcases hfits with hdvd | hfits
        · refine Or.inl ⟨hdvd, withinFrom_of_sum_le hgranularity hdvd hextent.le
            (fun weight hweight => hnonneg weight (mem_of_mem_dropLast hweight)) ?_⟩
          rw [zero_add, ← hsum]
          exact sum_dropLast_le hnonneg
        · exact Or.inr (fitsFrom_dropLast.mpr hfits)
      obtain ⟨boundaries, hboundaries, hlong, hcut⟩ :=
        planBoundaries_cut hgranularity hmax (dvd_zero granularity) hbegin hindex hfits'
      rw [hboundaries] at hplan
      rw [PlansValid.of_eq_ok hplan, validate_slicesFrom (by omega)]
      exact hcut

/-- A plan is valid exactly when the products of the checks fit and, unless the extent is a
    multiple of the granularity, no rounded boundary lies beyond the place that leaves a granule
    for every slice behind it. -/
theorem plan_valid_iff (hmax : extent ≤ int64Max) (devices : List Int) (weights : List Weight) :
    PlansValid extent granularity devices weights ↔ (0 < extent → 0 < granularity → devices ≠ [] →
        (weights = [] ∨ weights.length = devices.length) →
        Suits extent granularity devices weights) := by
  have hthrown : ∀ {message : String},
      planTensorParallelSlices extent granularity devices weights = .error (.thrown message) →
      ¬(0 < extent ∧ 0 < granularity ∧ devices ≠ [] ∧
        (weights = [] ∨ weights.length = devices.length)) →
      (PlansValid extent granularity devices weights ↔
        (0 < extent → 0 < granularity → devices ≠ [] →
          (weights = [] ∨ weights.length = devices.length) →
          Suits extent granularity devices weights)) := by
    intro message h hnot
    exact iff_of_true (PlansValid.of_eq_thrown h)
      fun h1 h2 h3 h4 => absurd ⟨h1, h2, h3, h4⟩ hnot
  by_cases hextent : extent ≤ 0
  · exact hthrown (if_pos hextent) fun h => by omega
  by_cases hgranularity : granularity ≤ 0
  · exact hthrown ((if_neg hextent).trans (if_pos hgranularity)) fun h => by omega
  by_cases hdevices : devices = []
  · exact hthrown ((if_neg hextent).trans ((if_neg hgranularity).trans (if_pos hdevices)))
      fun h => h.2.2.1 hdevices
  by_cases hlength : weights = [] ∨ weights.length = devices.length
  · rw [plansValid_iff_suits hmax (not_le.mp hextent) (not_le.mp hgranularity) hdevices hlength]
    exact ⟨fun h _ _ _ _ => h,
      fun h => h (not_le.mp hextent) (not_le.mp hgranularity) hdevices hlength⟩
  · rw [not_or] at hlength
    exact hthrown ((if_neg hextent).trans ((if_neg hgranularity).trans ((if_neg hdevices).trans
      (if_pos hlength)))) fun h => h.2.2.2.elim hlength.1 hlength.2

/-- An extent of 300 in granules of 128 and weights of 99 to 1: the boundary is pulled down to
    172, and the validator refuses the plan. -/
theorem plan_pulls_boundary :
    planTensorParallelSlices 300 128 [0, 1] [some 99, some 1] = .ok [⟨0, 0, 172⟩, ⟨1, 172, 300⟩] ∧
    validateTensorParallelSlices [⟨0, 0, 172⟩, ⟨1, 172, 300⟩] 300 128 =
      .error (.thrown "interior tensor-parallel boundaries are misaligned") := by
  constructor <;> decide +kernel

theorem plan_valid_iff_sample :
    PlansValid 17408 128 [0, 1, 2] [] ↔
      (0 < (17408 : Int) → 0 < (128 : Int) → [(0 : Int), 1, 2] ≠ [] →
        (([] : List Weight) = [] ∨ ([] : List Weight).length = [(0 : Int), 1, 2].length) →
        Suits 17408 128 [0, 1, 2] []) :=
  plan_valid_iff (by decide) [0, 1, 2] []

end TyloQuant.TensorParallel
