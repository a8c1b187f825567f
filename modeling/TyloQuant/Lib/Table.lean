import Mathlib

/-!
# Finite tables with a running total

A table is one of Mathlib's association lists with unique keys.  A program that keeps a
table usually keeps a counter beside it, and evicts by age when the counter passes a limit:
`total f t` is the sum of `f` over the entries, and `leastRecent` the scan for the oldest entry
among those that may go.
-/

namespace TyloQuant.Lib

open List

universe u v w

/-- A finite map from `K` to `V`. -/
abbrev Table (K : Type u) (V : Type v) := AList (fun _ : K => V)

namespace Table

variable {K : Type u} {V : Type v} [DecidableEq K]

/-! ### Lookup -/

theorem lookup_insert_ite (t : Table K V) (k j : K) (v : V) :
    (t.insert k v).lookup j = if j = k then some v else t.lookup j := by
  by_cases h : j = k
  · subst h
    simp
  · rw [if_neg h, AList.lookup_insert_ne h]

variable {t : Table K V} {k : K} {v : V}

theorem lookup_insert_cases {j : K} {w : V} (h : (t.insert k v).lookup j = some w) :
    (j = k ∧ w = v) ∨ (j ≠ k ∧ t.lookup j = some w) := by
  rw [lookup_insert_ite] at h
  split at h
  · rename_i hk
    exact Or.inl ⟨hk, (Option.some.inj h).symm⟩
  · rename_i hk
    exact Or.inr ⟨hk, h⟩

/-- What every entry has, and the new one, every entry has after the insert. -/
theorem forall_insert {P : K → V → Prop} (h : ∀ j w, t.lookup j = some w → P j w) (hnew : P k v) :
    ∀ j w, (t.insert k v).lookup j = some w → P j w := by
  intro j w hj
  rcases lookup_insert_cases hj with ⟨rfl, rfl⟩ | ⟨-, hold⟩
  · exact hnew
  · exact h j w hold

theorem forall_mem_insert {P : K → Prop} (h : ∀ j ∈ t, P j) (hnew : P k) :
    ∀ j ∈ t.insert k v, P j := by
  intro j hj
  rcases (AList.mem_insert t).mp hj with rfl | hold
  · exact hnew
  · exact h j hold

theorem lookup_erase_ite (t : Table K V) (k j : K) :
    (t.erase k).lookup j = if j = k then none else t.lookup j := by
  by_cases h : j = k
  · subst h
    simp
  · rw [if_neg h, AList.lookup_erase_ne h]

theorem mem_iff (t : Table K V) (k : K) : k ∈ t ↔ ∃ v, t.lookup k = some v := by
  rw [← AList.lookup_isSome, Option.isSome_iff_exists]

variable {t : Table K V} {k : K} {v : V}

theorem mem_of_lookup (h : t.lookup k = some v) : k ∈ t := (mem_iff t k).mpr ⟨v, h⟩

theorem mem_insert_of_mem (h : k ∈ t) {j : K} : j ∈ t.insert k v ↔ j ∈ t := by
  rw [AList.mem_insert]
  constructor
  · rintro (rfl | hj)
    · exact h
    · exact hj
  · exact Or.inr

variable {e : Sigma fun _ : K => V}

theorem lookup_of_mem_entries (h : e ∈ t.entries) : t.lookup e.1 = some e.2 :=
  AList.mem_lookup_iff.mpr h

theorem lookup_of_erase {j : K} (h : (t.erase k).lookup j = some v) : t.lookup j = some v := by
  rw [lookup_erase_ite] at h
  split at h
  · cases h
  · exact h

theorem length_erase (h : t.lookup k = some v) :
    (t.erase k).entries.length + 1 = t.entries.length := by
  have hk : k ∈ t.keys := AList.mem_keys.mp (mem_of_lookup h)
  have hlen : (t.erase k).keys.length + 1 = t.keys.length := by
    rw [AList.keys_erase, length_erase_of_mem hk]
    have := length_pos_of_mem hk
    omega
  simpa only [AList.keys, List.keys, length_map] using hlen

/-! ### Totals -/

/-- The sum of `f` over the values of a table. -/
def total (f : V → Nat) (t : Table K V) : Nat := (t.entries.map fun e => f e.2).sum

omit [DecidableEq K] in
@[simp] theorem total_empty (f : V → Nat) : total f (∅ : Table K V) = 0 := rfl

theorem sum_kerase (f : K → V → Nat) (k : K) (l : List (Sigma fun _ : K => V)) :
    (l.map fun e => f e.1 e.2).sum =
      ((l.kerase k).map fun e => f e.1 e.2).sum + ((l.dlookup k).map (f k)).getD 0 := by
  induction l with
  | nil => simp
  | cons e l ih =>
    by_cases h : k = e.1
    · obtain ⟨j, v⟩ := e
      subst h
      have hrest : (Sigma.mk k v :: l).kerase k = l := kerase_cons_eq rfl
      rw [hrest, dlookup_cons_eq]
      simp only [map_cons, sum_cons, Option.map_some, Option.getD_some]
      omega
    · rw [kerase_cons_ne h, dlookup_cons_ne _ _ h]
      simp only [map_cons, sum_cons, ih]
      omega

theorem total_eq_erase (f : V → Nat) (t : Table K V) (k : K) :
    total f t = total f (t.erase k) + ((t.lookup k).map f).getD 0 :=
  sum_kerase (fun _ => f) k t.entries

theorem total_erase_of_lookup (f : V → Nat) (h : t.lookup k = some v) :
    total f (t.erase k) = total f t - f v := by
  have hsum := total_eq_erase f t k
  simp only [h, Option.map_some, Option.getD_some] at hsum
  omega

theorem total_erase_of_none (f : V → Nat) (h : t.lookup k = none) :
    total f (t.erase k) = total f t := by
  have hsum := total_eq_erase f t k
  simp only [h, Option.map_none, Option.getD_none] at hsum
  omega

theorem le_total (f : V → Nat) (h : t.lookup k = some v) : f v ≤ total f t := by
  have hsum := total_eq_erase f t k
  simp only [h, Option.map_some, Option.getD_some] at hsum
  omega

theorem total_insert (f : V → Nat) (t : Table K V) (k : K) (v : V) :
    total f (t.insert k v) = f v + total f (t.erase k) := by
  simp only [total, AList.entries_insert, map_cons, sum_cons]
  rfl

theorem total_insert_of_none (f : V → Nat) (h : t.lookup k = none) :
    total f (t.insert k v) = f v + total f t := by
  rw [total_insert, total_erase_of_none f h]

theorem total_insert_of_same (f : V → Nat) {w : V} (h : t.lookup k = some w) (hw : f v = f w) :
    total f (t.insert k v) = total f t := by
  have hle := le_total f h
  rw [total_insert, total_erase_of_lookup f h]
  omega

theorem total_congr {f g : V → Nat} (h : ∀ k v, t.lookup k = some v → f v = g v) :
    total f t = total g t := by
  have hmap : (t.entries.map fun e => f e.2) = t.entries.map fun e => g e.2 := by
    refine map_congr_left fun e he => ?_
    exact h e.1 e.2 (lookup_of_mem_entries he)
  exact congrArg List.sum hmap

theorem total_eq_zero {f : V → Nat} (h : ∀ k v, t.lookup k = some v → f v = 0) : total f t = 0 := by
  have hzero : total f t = total (fun _ => 0) t := total_congr h
  rw [hzero]
  simp [total]

omit [DecidableEq K] in
/-- A table in which every entry weighs one is empty when its total is zero. -/
theorem eq_empty_of_total_one (h : total (fun _ => 1) t = 0) : t = ∅ := by
  apply AList.ext
  refine eq_nil_of_length_eq_zero ?_
  simpa [total] using h

/-! ### Scanning for the oldest entry -/

/-- One step of the scan: keep the victim so far unless `e` may go and is older. -/
def older (eligible : K → V → Bool) (age : V → Nat)
    (victim : Option (Sigma fun _ : K => V)) (e : Sigma fun _ : K => V) :
    Option (Sigma fun _ : K => V) :=
  if eligible e.1 e.2 then
    match victim with
    | none => some e
    | some v => if age e.2 < age v.2 then some e else some v
  else victim

/-- The entry with the smallest age among the eligible ones, first met first. -/
def leastRecent (eligible : K → V → Bool) (age : V → Nat) (t : Table K V) :
    Option (Sigma fun _ : K => V) :=
  t.entries.foldl (older eligible age) none

variable {eligible : K → V → Bool} {age : V → Nat}

omit [DecidableEq K] in
theorem older_foldl_some {es : List (Sigma fun _ : K => V)} {init : Option (Sigma fun _ : K => V)}
    (h : es.foldl (older eligible age) init = some e) :
    init = some e ∨ (e ∈ es ∧ eligible e.1 e.2 = true) := by
  induction es generalizing init with
  | nil => exact Or.inl h
  | cons d es ih =>
    rw [foldl_cons] at h
    rcases ih h with hinit | ⟨hmem, helig⟩
    · unfold older at hinit
      split at hinit
      · rename_i hd
        have hcases : init = some e ∨ d = e := by
          split at hinit
          · exact Or.inr (Option.some.inj hinit)
          · split at hinit
            · exact Or.inr (Option.some.inj hinit)
            · exact Or.inl hinit
        rcases hcases with hi | rfl
        · exact Or.inl hi
        · exact Or.inr ⟨mem_cons_self, hd⟩
      · exact Or.inl hinit
    · exact Or.inr ⟨mem_cons_of_mem d hmem, helig⟩

theorem leastRecent_some (h : leastRecent eligible age t = some e) :
    t.lookup e.1 = some e.2 ∧ eligible e.1 e.2 = true := by
  rcases older_foldl_some h with hnone | ⟨hmem, helig⟩
  · cases hnone
  · exact ⟨lookup_of_mem_entries hmem, helig⟩

theorem leastRecent_none (h : leastRecent eligible age t = none) (hv : t.lookup k = some v) :
    eligible k v = false := by
  have hsome : ∀ (es : List (Sigma fun _ : K => V)) (e : Sigma fun _ : K => V),
      es.foldl (older eligible age) (some e) ≠ none := by
    intro es
    induction es with
    | nil => simp
    | cons d es ih =>
      intro e
      rw [foldl_cons]
      unfold older
      split
      · dsimp only
        split <;> exact ih _
      · exact ih e
  have hall : ∀ (es : List (Sigma fun _ : K => V)), es.foldl (older eligible age) none = none →
      ∀ e ∈ es, eligible e.1 e.2 = false := by
    intro es
    induction es with
    | nil => simp
    | cons d es ih =>
      intro hfold e he
      rw [foldl_cons] at hfold
      cases hd : eligible d.1 d.2 with
      | true =>
        have hfirst : older eligible age none d = some d := by simp [older, hd]
        rw [hfirst] at hfold
        exact absurd hfold (hsome es d)
      | false =>
        have hfirst : older eligible age none d = none := by simp [older, hd]
        rw [hfirst] at hfold
        rcases mem_cons.mp he with rfl | hmem
        · exact hd
        · exact ih hfold e hmem
  exact hall t.entries h ⟨k, v⟩ (AList.mem_lookup_iff.mp hv)

/-- No entry that may go is older than the victim. -/
theorem leastRecent_oldest (h : leastRecent eligible age t = some e) (hv : t.lookup k = some v)
    (helig : eligible k v = true) : age e.2 ≤ age v := by
  have hfold : ∀ (es : List (Sigma fun _ : K => V)) (init : Option (Sigma fun _ : K => V)),
      es.foldl (older eligible age) init = some e → (∀ d, init = some d → age e.2 ≤ age d.2) ∧
          ∀ d ∈ es, eligible d.1 d.2 = true → age e.2 ≤ age d.2 := by
    intro es
    induction es with
    | nil =>
      intro init hinit
      rw [foldl_nil] at hinit
      constructor
      · intro d hd
        rw [hinit, Option.some.injEq] at hd
        rw [hd]
      · intro d hd
        cases hd
    | cons d es ih =>
      intro init hinit
      rw [foldl_cons] at hinit
      obtain ⟨hfirst, hrest⟩ := ih _ hinit
      have hboth : (∀ d', init = some d' → age e.2 ≤ age d'.2) ∧
          (eligible d.1 d.2 = true → age e.2 ≤ age d.2) := by
        unfold older at hfirst
        by_cases hd : eligible d.1 d.2 = true
        · rw [if_pos hd] at hfirst
          cases init with
          | none => exact ⟨fun _ h => (by cases h), fun _ => hfirst d rfl⟩
          | some v =>
            dsimp only at hfirst
            by_cases hlt : age d.2 < age v.2
            · rw [if_pos hlt] at hfirst
              have hle := hfirst d rfl
              constructor
              · intro d' hd'
                obtain rfl := Option.some.inj hd'
                omega
              · exact fun _ => hle
            · rw [if_neg hlt] at hfirst
              have hle := hfirst v rfl
              constructor
              · intro d' hd'
                obtain rfl := Option.some.inj hd'
                exact hle
              · intro _
                omega
        · rw [if_neg hd] at hfirst
          exact ⟨hfirst, fun h => absurd h hd⟩
      refine ⟨hboth.1, ?_⟩
      intro d' hd'
      rcases mem_cons.mp hd' with rfl | hmem
      · exact hboth.2
      · exact hrest d' hmem
  exact (hfold t.entries none h).2 ⟨k, v⟩ (AList.mem_lookup_iff.mp hv) helig

/-! ### Tables of lists -/

/-- The members of all lists of a table, each with its key. -/
def flat (t : Table K (List V)) : List (K × V) := t.entries.flatMap fun e => e.2.map (e.1, ·)

omit [DecidableEq K] in
@[simp] theorem flat_empty : flat (∅ : Table K (List V)) = [] := rfl

theorem entries_perm (h : t.lookup k = some v) :
    t.entries.Perm (⟨k, v⟩ :: (t.erase k).entries) := by
  have hlist : ∀ l : List (Sigma fun _ : K => V), l.dlookup k = some v →
      l.Perm (⟨k, v⟩ :: l.kerase k) := by
    intro l
    induction l with
    | nil =>
      intro hnone
      simp at hnone
    | cons e l ih =>
      obtain ⟨j, w⟩ := e
      intro hl
      by_cases hjk : k = j
      · subst hjk
        rw [dlookup_cons_eq] at hl
        obtain rfl := Option.some.inj hl
        have hrest : (Sigma.mk k w :: l).kerase k = l := kerase_cons_eq rfl
        rw [hrest]
      · rw [dlookup_cons_ne _ _ hjk] at hl
        rw [kerase_cons_ne hjk]
        exact ((ih hl).cons _).trans (List.Perm.swap _ _ _)
  exact hlist t.entries h

theorem flat_erase {t : Table K (List V)} {vs : List V} (h : t.lookup k = some vs) :
    (flat t).Perm (vs.map (k, ·) ++ flat (t.erase k)) :=
  (entries_perm h).flatMap_right _

theorem flat_insert (t : Table K (List V)) (k : K) (vs : List V) :
    flat (t.insert k vs) = vs.map (k, ·) ++ flat (t.erase k) := by
  unfold flat
  rw [AList.entries_insert, flatMap_cons]
  rfl

theorem mem_flat {t : Table K (List V)} :
    (k, v) ∈ flat t ↔ ∃ vs, t.lookup k = some vs ∧ v ∈ vs := by
  unfold flat
  rw [mem_flatMap]
  constructor
  · rintro ⟨e, he, hv⟩
    obtain ⟨w, hw, hpair⟩ := mem_map.mp hv
    obtain ⟨rfl, rfl⟩ := Prod.mk.inj hpair
    exact ⟨e.2, lookup_of_mem_entries he, hw⟩
  · rintro ⟨vs, hvs, hv⟩
    exact ⟨⟨k, vs⟩, AList.mem_lookup_iff.mp hvs, mem_map.mpr ⟨v, hv, rfl⟩⟩

theorem erase_of_notMem (h : k ∉ t) : t.erase k = t := by
  apply AList.ext
  exact kerase_of_notMem_keys h

/-! ### Updating every value -/

omit [DecidableEq K] in
theorem keys_map_val {W : Type w} (f : K → V → W) (l : List (Sigma fun _ : K => V)) :
    (l.map fun e => (⟨e.1, f e.1 e.2⟩ : Sigma fun _ : K => W)).keys = l.keys := by
  induction l with
  | nil => rfl
  | cons e l ih => simp [keys_cons, ih]

/-- The table with `f` applied to every value. -/
def mapVal {W : Type w} (f : K → V → W) (t : Table K V) : Table K W where
  entries := t.entries.map fun e => ⟨e.1, f e.1 e.2⟩
  nodupKeys := by
    have h : t.entries.keys.Nodup := t.nodupKeys
    show (t.entries.map _).keys.Nodup
    rwa [keys_map_val]

theorem lookup_mapVal {W : Type w} (f : K → V → W) (t : Table K V) (k : K) :
    (mapVal f t).lookup k = (t.lookup k).map (f k) := by
  have hlist : ∀ l : List (Sigma fun _ : K => V),
      (l.map fun e => (⟨e.1, f e.1 e.2⟩ : Sigma fun _ : K => W)).dlookup k =
        (l.dlookup k).map (f k) := by
    intro l
    induction l with
    | nil => rfl
    | cons e l ih =>
      obtain ⟨j, v⟩ := e
      by_cases hjk : k = j
      · subst hjk
        simp only [map_cons, dlookup_cons_eq, Option.map_some]
      · rw [map_cons, dlookup_cons_ne _ _ hjk, ih, dlookup_cons_ne _ _ hjk]
  exact hlist t.entries

/-! ### Keeping some entries -/

/-- The entries that `p` keeps. -/
def filter (p : K → V → Bool) (t : Table K V) : Table K V where
  entries := t.entries.filter fun e => p e.1 e.2
  nodupKeys := t.nodupKeys.sublist filter_sublist

theorem lookup_filter_some {p : K → V → Bool} {t : Table K V} {k : K} {v : V} :
    (filter p t).lookup k = some v ↔ t.lookup k = some v ∧ p k v = true := by
  have hentry : (filter p t).lookup k = some v ↔
      (⟨k, v⟩ : Sigma fun _ : K => V) ∈ t.entries.filter fun e => p e.1 e.2 :=
    AList.mem_lookup_iff
  rw [hentry, mem_filter]
  exact and_congr_left fun _ => AList.mem_lookup_iff.symm

theorem lookup_filter (p : K → V → Bool) (t : Table K V) (k : K) :
    (filter p t).lookup k = (t.lookup k).filter (p k) := by
  apply Option.ext
  intro v
  rw [lookup_filter_some, Option.filter_eq_some_iff]

/-! ### Changing one entry -/

/-- Change the value of `k`, if it has one. -/
def adjust (t : Table K V) (k : K) (f : V → V) : Table K V :=
  match t.lookup k with
  | none => t
  | some v => t.insert k (f v)

theorem lookup_adjust (t : Table K V) (k j : K) (f : V → V) :
    (t.adjust k f).lookup j = if j = k then (t.lookup k).map f else t.lookup j := by
  unfold adjust
  cases hk : t.lookup k with
  | none =>
    by_cases hj : j = k
    · subst hj
      simp [hk]
    · simp [hj]
  | some v => simp [lookup_insert_ite]

end Table

end TyloQuant.Lib
