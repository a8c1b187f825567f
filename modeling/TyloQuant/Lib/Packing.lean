import Mathlib.Data.List.Chain
import Mathlib.Data.List.Flatten

/-!
# Greedy packing

Items are packed in their order: each goes into the bin opened last, unless that bin is full for
it, and then a new bin is opened.  The rule that says when a bin is full is a parameter.  What is
packed is what was given, in its order, no bin was closed too early, and what a bin that is not
full for its next item keeps, every bin has.
-/

namespace TyloQuant.Lib

open List

universe u

variable {α : Type u}

/-- The bins that are closed, and the one that is open. -/
structure Packing (α : Type u) where
  closed : List (List α) := []
  current : List α := []

namespace Packing

def bins (p : Packing α) : List (List α) := p.closed ++ [p.current]

variable (full : List α → α → Bool)

def put (p : Packing α) (x : α) : Packing α :=
  if full p.current x then ⟨p.bins, [x]⟩ else ⟨p.closed, p.current ++ [x]⟩

def putAll (p : Packing α) (items : List α) : Packing α := items.foldl (put full) p

/-- A bin was closed only because it was full for the first item of the next one. -/
def Tight (bins : List (List α)) : Prop :=
  bins.IsChain fun bin next => ∃ x rest, next = x :: rest ∧ full bin x = true

variable {full} {p : Packing α} {x : α}

theorem put_of_full (h : full p.current x = true) : p.put full x = ⟨p.bins, [x]⟩ := if_pos h

theorem put_of_room (h : full p.current x = false) :
    p.put full x = ⟨p.closed, p.current ++ [x]⟩ := if_neg (by simp [h])

theorem putAll_keeps {P : Packing α → Prop} (hput : ∀ p x, P p → P (p.put full x)) (h : P p)
    (items : List α) : P (p.putAll full items) :=
  List.foldlRecOn items (put full) h fun p hp x _ => hput p x hp

theorem flatten_put (p : Packing α) (x : α) :
    (p.put full x).bins.flatten = p.bins.flatten ++ [x] := by
  cases h : full p.current x with
  | true => simp [put_of_full h, bins]
  | false => simp [put_of_room h, bins]

/-- **Every item is packed once, in its order.** -/
theorem flatten_putAll (full : List α → α → Bool) (p : Packing α) (items : List α) :
    (p.putAll full items).bins.flatten = p.bins.flatten ++ items := by
  induction items generalizing p with
  | nil => simp [putAll]
  | cons x items ih =>
    have hrest := ih (p.put full x)
    rw [flatten_put, List.append_assoc] at hrest
    exact hrest

theorem length_put (p : Packing α) (x : α) : p.bins.length ≤ (p.put full x).bins.length := by
  cases h : full p.current x with
  | true => simp [put_of_full h, bins]
  | false => simp [put_of_room h, bins]

/-- Bins are only added. -/
theorem length_putAll (p : Packing α) (items : List α) :
    p.bins.length ≤ (p.putAll full items).bins.length :=
  putAll_keeps (P := fun q => p.bins.length ≤ q.bins.length)
    (fun q x hq => hq.trans (length_put q x)) le_rfl items

theorem tight_put (h : Tight full p.bins) (x : α) : Tight full (p.put full x).bins := by
  cases hfull : full p.current x with
  | true =>
    rw [put_of_full hfull]
    apply isChain_append.mpr
    refine ⟨h, isChain_singleton _, ?_⟩
    intro bin hbin next hnext
    have hlast : p.bins.getLast? = some p.current := by simp [bins]
    rw [hlast] at hbin
    obtain rfl := Option.mem_some_iff.mp hbin
    obtain rfl := Option.mem_some_iff.mp hnext
    exact ⟨x, [], rfl, hfull⟩
  | false =>
    rw [put_of_room hfull]
    obtain ⟨hclosed, -, hlink⟩ := isChain_append.mp h
    apply isChain_append.mpr
    refine ⟨hclosed, isChain_singleton _, ?_⟩
    intro bin hbin next hnext
    obtain rfl := Option.mem_some_iff.mp hnext
    -- the open bin keeps its first item, for it has one unless it is the only bin
    obtain ⟨y, rest, hcurrent, hy⟩ := hlink bin hbin p.current rfl
    exact ⟨y, rest ++ [x], by rw [hcurrent, cons_append], hy⟩

/-- **No bin is closed too early.** -/
theorem tight_putAll (full : List α → α → Bool) (items : List α) :
    Tight full (Packing.putAll full {} items).bins := by
  have hstart : Tight full ({} : Packing α).bins := isChain_singleton []
  exact putAll_keeps (P := fun p => Tight full p.bins) (fun _ x hp => tight_put hp x) hstart items

/-- **The packing rule.**  A property of the empty bin and of every bin with one item, kept by an
    item for which the bin is not full, holds of every bin. -/
theorem forall_putAll {P : List α → Prop} (hnil : P []) (hone : ∀ x, P [x])
    (hroom : ∀ bin x, P bin → full bin x = false → P (bin ++ [x])) (items : List α) :
    ∀ bin ∈ (Packing.putAll full {} items).bins, P bin := by
  apply putAll_keeps (P := fun p => ∀ bin ∈ p.bins, P bin)
  · intro p x hp
    cases hfull : full p.current x with
    | true =>
      rw [put_of_full hfull]
      exact forall_mem_append.mpr ⟨hp, forall_mem_singleton.mpr (hone x)⟩
    | false =>
      rw [put_of_room hfull]
      obtain ⟨hclosed, hcurrent⟩ := forall_mem_append.mp hp
      refine forall_mem_append.mpr ⟨hclosed, forall_mem_singleton.mpr ?_⟩
      exact hroom p.current x (forall_mem_singleton.mp hcurrent) hfull
  · intro bin hbin
    obtain rfl := mem_singleton.mp hbin
    exact hnil

end Packing

end TyloQuant.Lib
