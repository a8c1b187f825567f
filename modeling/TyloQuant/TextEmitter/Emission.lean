import TyloQuant.TextEmitter.Emitter

/-!
# Text emission is exact

One step of the decoder is decided by the bytes that it consumes and the next one, so what was
consumed stays right whatever follows (`Settled`).  What is consumed never begins a stop string,
so the first stop string of the whole input is found in what is pending.
-/

namespace TyloQuant.TextEmitter

open Lib (find find_some find_none heldWidth heldWidth_spec not_prefix_append)
open Lib.Utf8
open List hiding tail

/-! ### One step of the decoder -/

/-- `utf8_tail` over the ranges that the bytes have to be in. -/
def walk (j : Nat) : List Range → List UInt8 → Utf8Step
  | [], _ => ⟨j, true, false⟩
  | _ :: _, [] => ⟨j, false, true⟩
  | r :: t, b :: rest => if r.Holds b then walk (j + 1) t rest else ⟨j, false, false⟩

/-- The ranges of the bytes from `j` on. -/
def ranges (width : Nat) (low high : UInt8) (j : Nat) : List Range :=
  (List.range' j (width - j)).map fun i => if i = 1 then (low, high) else tail

theorem utf8Tail_eq {width j : Nat} (low high : UInt8) (rest : List UInt8) (h : j ≤ width) :
    utf8Tail width low high j rest = walk j (ranges width low high j) rest := by
  induction rest generalizing j with
  | nil =>
    rw [utf8Tail, ranges]
    split
    · rename_i hlt
      obtain ⟨k, hk⟩ := Nat.exists_eq_add_of_lt hlt
      have hsub : width - j = k + 1 := by omega
      rw [hsub, range'_succ, map_cons, walk]
    · have hsub : width - j = 0 := by omega
      have heq : width = j := by omega
      rw [hsub, heq]
      rfl
  | cons next rest ih =>
    rw [utf8Tail]
    split
    · rename_i hlt
      have hsub : width - j = width - (j + 1) + 1 := by omega
      have hranges : ranges width low high j =
          (if j = 1 then (low, high) else tail) :: ranges width low high (j + 1) := by
        rw [ranges, hsub, range'_succ, map_cons]
        rfl
      have hholds : ∀ low high : UInt8,
          Range.Holds (low, high) next ↔ ¬(next < low ∨ high < next) := by
        intro low high
        rw [not_or, UInt8.not_lt, UInt8.not_lt]
        rfl
      rw [hranges, walk, ih hlt]
      by_cases hj : j = 1
      · simp only [if_pos hj, hholds, ite_not]
      · simp only [if_neg hj, tail, hholds, ite_not]
    · have hsub : width - j = 0 := by omega
      have heq : width = j := by omega
      rw [ranges, hsub, heq]
      rfl

theorem leadByte_eq (a : UInt8) :
    (if a < 0x80 then some [] else
      (leadByte a).map fun lead => ranges lead.1 lead.2.1 lead.2.2 1) = tails a := by
  have hall : ∀ n : Fin 256, (if (UInt8.ofFin n) < 0x80 then some [] else
      (leadByte (.ofFin n)).map fun lead => ranges lead.1 lead.2.1 lead.2.2 1) =
        tails (.ofFin n) := by decide +kernel
  exact hall a.toFin

theorem utf8Step_cons (a : UInt8) (rest : List UInt8) :
    utf8Step (a :: rest) = match tails a with
      | none => ⟨1, false, false⟩
      | some t => walk 1 t rest := by
  have hlead := leadByte_eq a
  rw [utf8Step]
  split
  · rename_i hascii
    rw [if_pos hascii] at hlead
    rw [← hlead]
    rfl
  · rename_i hascii
    rw [if_neg hascii] at hlead
    rw [← hlead]
    split
    · rename_i hnone
      rw [hnone]
      rfl
    · rename_i width low high hsome
      rw [hsome]
      refine utf8Tail_eq low high rest ?_
      unfold leadByte at hsome
      split at hsome
      · cases hsome
        decide
      · split at hsome
        · cases hsome
          decide
        · split at hsome
          · cases hsome
            decide
          · cases hsome

/-- How a walk ends: with all ranges, at the end of the input, or at a byte out of range. -/
theorem walk_cases (j : Nat) (t : List Range) (rest : List UInt8) :
    (∃ cs more, rest = cs ++ more ∧ List.Forall₂ Range.Holds t cs ∧
      walk j t rest = ⟨j + cs.length, true, false⟩) ∨
    (∃ t₁ r t₂, t = t₁ ++ r :: t₂ ∧ List.Forall₂ Range.Holds t₁ rest ∧
      walk j t rest = ⟨j + rest.length, false, true⟩) ∨
    ∃ cs b more t₁ r t₂, rest = cs ++ b :: more ∧ t = t₁ ++ r :: t₂ ∧
      List.Forall₂ Range.Holds t₁ cs ∧ ¬r.Holds b ∧
      walk j t rest = ⟨j + cs.length, false, false⟩ := by
  induction t generalizing j rest with
  | nil => exact .inl ⟨[], rest, rfl, .nil, by rw [walk]; rfl⟩
  | cons r t ih =>
    cases rest with
    | nil => exact .inr (.inl ⟨[], r, t, rfl, .nil, by rw [walk]; rfl⟩)
    | cons b rest =>
      rw [walk]
      split
      · rename_i hr
        rcases ih (j + 1) rest with ⟨cs, more, rfl, hholds, heq⟩ |
          ⟨t₁, r', t₂, rfl, hholds, heq⟩ | ⟨cs, b', more, t₁, r', t₂, rfl, rfl, hholds, hb, heq⟩
        · refine .inl ⟨b :: cs, more, rfl, .cons hr hholds, ?_⟩
          rw [heq, length_cons]
          congr 1
          omega
        · refine .inr (.inl ⟨r :: t₁, r', t₂, rfl, .cons hr hholds, ?_⟩)
          rw [heq, length_cons]
          congr 1
          omega
        · refine .inr (.inr ⟨b :: cs, b', more, r :: t₁, r', t₂, rfl, rfl, .cons hr hholds, hb, ?_⟩)
          rw [heq, length_cons]
          congr 1
          omega
      · rename_i hr
        exact .inr (.inr ⟨[], b, rest, [], r, t, rfl, rfl, .nil, hr, rfl⟩)

variable {t₁ t₂ : List Range} {cs : List UInt8}

/-- A byte out of range ends every sequence that reaches it. -/
theorem holds_of_forall₂ {r : Range} {more : List UInt8} {b : UInt8}
    (hlen : t₁.length = cs.length)
    (h : List.Forall₂ Range.Holds (t₁ ++ r :: t₂) (cs ++ b :: more)) : r.Holds b := by
  induction t₁ generalizing cs with
  | nil =>
    obtain rfl := length_eq_zero_iff.mp hlen.symm
    cases h with
    | cons hr _ => exact hr
  | cons _ t₁ ih =>
    cases cs with
    | nil => cases hlen
    | cons c cs =>
      cases h with
      | cons _ hrest => exact ih (Nat.succ.inj hlen) hrest

theorem begun_of_forall₂ {a : UInt8} (ht : tails a = some (t₁ ++ t₂))
    (h : List.Forall₂ Range.Holds t₁ cs) : IsBegun (a :: cs) := by
  obtain ⟨row, hmem, r, rfl, -⟩ := (tails_iff a _).mp ht
  have hall : (table.all fun row => row.all fun r => decide (r.Holds r.1)) = true := by decide
  obtain ⟨ys, hys⟩ := exists_holds (t := t₂) fun r' hr' =>
    of_decide_eq_true (all_eq_true.mp (all_eq_true.mp hall _ hmem) r'
      (mem_cons_of_mem r (mem_append_right t₁ hr')))
  exact isBegun_cons.mpr ⟨_, ht, ys, rel_append h hys⟩

/-- What one step of the decoder does with a string that is not empty. -/
inductive Stepped (xs : List UInt8) : Prop
  | char (c more : List UInt8) (split : xs = c ++ more) (isChar : IsChar c)
      (step : utf8Step xs = ⟨c.length, true, false⟩)
  | bad (m more : List UInt8) (split : xs = m ++ more) (ne : m ≠ [])
      (maximal : ∀ ys, MaximalSubpart m (more ++ ys))
      (step : utf8Step xs = ⟨m.length, false, false⟩)
  | cut (maximal : MaximalSubpart xs []) (step : utf8Step xs = ⟨xs.length, false, true⟩)

variable {xs : List UInt8}

theorem stepped (hne : xs ≠ []) : Stepped xs := by
  obtain ⟨a, rest, rfl⟩ := exists_cons_of_ne_nil hne
  have hstep := utf8Step_cons a rest
  cases ht : tails a with
  | none =>
    rw [ht] at hstep
    refine .bad [a] rest rfl (by simp) (fun ys => ⟨fun c hc hpre => ?_, .inl rfl,
      fun m' hpre hbegun => ?_⟩) hstep
    · cases c with
      | nil => exact not_isChar_nil hc
      | cons b c =>
        obtain ⟨rfl, -⟩ := cons_prefix_cons.mp hpre
        obtain ⟨t, htails, -⟩ := isChar_cons.mp hc
        exact absurd (ht.symm.trans htails) (by simp)
    · cases m' with
      | nil => exact Nat.zero_le _
      | cons b c =>
        obtain ⟨rfl, -⟩ := cons_prefix_cons.mp hpre
        obtain ⟨t, htails, -⟩ := isBegun_cons.mp hbegun
        exact absurd (ht.symm.trans htails) (by simp)
  | some t =>
    rw [ht] at hstep
    rcases walk_cases 1 t rest with ⟨cs, more, rfl, hholds, heq⟩ |
      ⟨t₁, r, t₂, rfl, hholds, heq⟩ | ⟨cs, b, more, t₁, r, t₂, rfl, rfl, hholds, hb, heq⟩
    · refine .char (a :: cs) more rfl (isChar_cons.mpr ⟨t, ht, hholds⟩) ?_
      rw [hstep, length_cons, Nat.add_comm]
      exact heq
    · refine .cut ⟨fun c hc hpre => ?_, .inr ⟨by simp, begun_of_forall₂ ht hholds⟩,
        fun m' hpre _ => ?_⟩ ?_
      · -- the encoding would be longer than the input
        rw [List.append_nil] at hpre
        cases c with
        | nil => exact not_isChar_nil hc
        | cons b c =>
          obtain ⟨rfl, hrest⟩ := cons_prefix_cons.mp hpre
          obtain ⟨t', htails, hc'⟩ := isChar_cons.mp hc
          obtain rfl := Option.some.inj (ht.symm.trans htails)
          have hlen := hc'.length_eq
          have hlen' := hholds.length_eq
          have hle := hrest.length_le
          rw [length_append, length_cons] at hlen
          omega
      · rw [List.append_nil] at hpre
        exact hpre.length_le
      · rw [hstep, length_cons, Nat.add_comm]
        exact heq
    · have hlen : t₁.length = cs.length := hholds.length_eq
      -- no sequence with this lead byte gets past `b`
      have hstuck : ∀ ds ys : List UInt8, List.Forall₂ Range.Holds (t₁ ++ r :: t₂) (ds ++ ys) →
          ∀ zs, ds <+: cs ++ b :: zs → ds.length ≤ cs.length := by
        intro ds ys hds zs hpre
        by_contra hlong
        obtain ⟨ws, hws⟩ := hpre
        have hsplit : cs ++ [b] <+: ds := by
          refine prefix_of_prefix_length_le (?_ : _ <+: cs ++ b :: zs) ⟨ws, hws⟩ ?_
          · exact ⟨zs, by simp⟩
          · rw [length_append, length_singleton]
            omega
        obtain ⟨vs, rfl⟩ := hsplit
        rw [List.append_assoc, List.append_assoc] at hds
        exact hb (holds_of_forall₂ hlen hds)
      refine .bad (a :: cs) (b :: more) rfl (by simp) (fun ys => ⟨fun c hc hpre => ?_,
        .inr ⟨by simp, begun_of_forall₂ ht hholds⟩, fun m' hpre hbegun => ?_⟩) ?_
      · cases c with
        | nil => exact not_isChar_nil hc
        | cons d c =>
          obtain ⟨rfl, hrest⟩ := cons_prefix_cons.mp hpre
          obtain ⟨t', htails, hc'⟩ := isChar_cons.mp hc
          obtain rfl := Option.some.inj (ht.symm.trans htails)
          have hle := hstuck c [] (by rwa [List.append_nil]) (more ++ ys) hrest
          have hlen' := hc'.length_eq
          rw [length_append, length_cons] at hlen'
          omega
      · cases m' with
        | nil => exact Nat.zero_le _
        | cons d c =>
          obtain ⟨rfl, hrest⟩ := cons_prefix_cons.mp hpre
          obtain ⟨t', htails, zs, hc'⟩ := isBegun_cons.mp hbegun
          obtain rfl := Option.some.inj (ht.symm.trans htails)
          have hle := hstuck c zs hc' (more ++ ys) hrest
          rw [length_cons, length_cons]
          omega
      · rw [hstep, length_cons, Nat.add_comm]
        exact heq

/-! ### What was consumed stays right -/

/-- One of two strings begins with the other. -/
def Agree (xs ys : List UInt8) : Prop := xs <+: ys ∨ ys <+: xs

variable {ys : List UInt8}

theorem Agree.of_prefix {ys' : List UInt8} (h : Agree xs ys) (hpre : ys' <+: ys) :
    Agree xs ys' := by
  rcases h with h | h
  · exact List.prefix_or_prefix_of_prefix h hpre
  · exact .inr (hpre.trans h)

theorem Agree.append (h : Agree xs ys) (zs : List UInt8) : Agree (zs ++ xs) (zs ++ ys) := by
  rcases h with h | h
  · exact .inl ((prefix_append_right_inj zs).mpr h)
  · exact .inr ((prefix_append_right_inj zs).mpr h)

theorem MaximalSubpart.of_prefix {m : List UInt8} (h : MaximalSubpart m xs) (hpre : ys <+: xs) :
    MaximalSubpart m ys := by
  have hpre' : m ++ ys <+: m ++ xs := (prefix_append_right_inj m).mpr hpre
  exact ⟨fun c hc hcpre => h.ill c hc (hcpre.trans hpre'), h.subpart,
    fun m' hm' hbegun => h.maximal m' (hm'.trans hpre') hbegun⟩

/-- `out` is right for the bytes `consumed`, whatever becomes of the input after `rest`. -/
def Settled (consumed rest out : List UInt8) : Prop :=
  ∀ zs out', Agree zs rest → Sanitised zs out' → Sanitised (consumed ++ zs) (out ++ out')

theorem Settled.nil (rest : List UInt8) : Settled [] rest [] := fun _ _ _ h => h

variable {consumed out rest : List UInt8}

theorem Settled.append {consumed' out' : List UInt8}
    (h : Settled consumed (consumed' ++ rest) out) (h' : Settled consumed' rest out') :
    Settled (consumed ++ consumed') rest (out ++ out') := by
  intro zs out'' hagree hs
  rw [List.append_assoc, List.append_assoc]
  exact h _ _ (hagree.append consumed') (h' zs out'' hagree hs)

/-- Seeing less of what follows makes no difference. -/
theorem Settled.of_prefix {rest' : List UInt8} (h : Settled consumed rest out)
    (hpre : rest <+: rest') : Settled consumed rest' out :=
  fun zs out' hagree => h zs out' (hagree.of_prefix hpre)

/-- What is consumed short of the end is settled. -/
theorem utf8Loop_settled (turns : Nat) (xs : List UInt8) (hturns : xs.length ≤ turns) :
    (utf8Loop false turns xs).2 ≤ xs.length ∧
      Settled (xs.take (utf8Loop false turns xs).2) (xs.drop (utf8Loop false turns xs).2)
        (utf8Loop false turns xs).1 := by
  induction turns generalizing xs with
  | zero => exact ⟨Nat.zero_le _, Settled.nil _⟩
  | succ turns ih =>
    rw [utf8Loop]
    split
    · exact ⟨Nat.zero_le _, Settled.nil _⟩
    · rename_i hne
      have hgo : ∀ cs more out : List UInt8, xs = cs ++ more → cs ≠ [] →
          (∀ zs out', Agree zs more → Sanitised zs out' → Sanitised (cs ++ zs) (out ++ out')) →
          cs.length + (utf8Loop false turns more).2 ≤ xs.length ∧
            Settled (xs.take (cs.length + (utf8Loop false turns more).2))
              (xs.drop (cs.length + (utf8Loop false turns more).2))
              (out ++ (utf8Loop false turns more).1) := by
        intro cs more out hsplit hcs hout
        have hlen : xs.length = cs.length + more.length := by rw [hsplit, length_append]
        have hpos := length_pos_of_ne_nil hcs
        obtain ⟨hle, hsettled⟩ := ih more (by omega)
        refine ⟨by omega, ?_⟩
        have htake : xs.take (cs.length + (utf8Loop false turns more).2) =
            cs ++ more.take (utf8Loop false turns more).2 := by
          rw [hsplit, take_length_add_append]
        have hdrop : xs.drop (cs.length + (utf8Loop false turns more).2) =
            more.drop (utf8Loop false turns more).2 := by
          rw [hsplit, drop_length_add_append]
        rw [htake, hdrop]
        refine Settled.append (fun zs out' hagree => hout zs out' ?_) hsettled
        rwa [take_append_drop] at hagree
      rcases stepped hne with ⟨c, more, hsplit, hc, hstep⟩ | ⟨m, more, hsplit, hm, hmax, hstep⟩ |
        ⟨-, hstep⟩
      · have hdrop : xs.drop c.length = more := by rw [hsplit, drop_left]
        have htake : xs.take c.length = c := by rw [hsplit, take_left]
        simp only [hstep, Bool.false_and, Bool.false_eq_true, if_false, if_true, hdrop, htake]
        exact hgo c more c hsplit (isChar_ne_nil hc) fun zs out' _ hs => .char hc hs
      · have hdrop : xs.drop m.length = more := by rw [hsplit, drop_left]
        simp only [hstep, Bool.false_and, Bool.false_eq_true, if_false, hdrop]
        refine hgo m more replacement hsplit hm fun zs out' hagree hs => .subpart ?_ hs
        rcases hagree with hpre | ⟨ys, rfl⟩
        · have hnil := hmax []
          rw [List.append_nil] at hnil
          exact MaximalSubpart.of_prefix hnil hpre
        · exact hmax ys
      · simp only [hstep, Bool.not_false, Bool.and_true, if_true]
        exact ⟨Nat.zero_le _, Settled.nil _⟩

/-- At the end everything is consumed. -/
theorem utf8Loop_end (turns : Nat) (xs : List UInt8) (hturns : xs.length ≤ turns) :
    (utf8Loop true turns xs).2 = xs.length ∧ Sanitised xs (utf8Loop true turns xs).1 := by
  induction turns generalizing xs with
  | zero =>
    obtain rfl := length_eq_zero_iff.mp (Nat.le_zero.mp hturns)
    exact ⟨rfl, .nil⟩
  | succ turns ih =>
    rw [utf8Loop]
    split
    · rename_i hnil
      rw [hnil]
      exact ⟨rfl, .nil⟩
    · rename_i hne
      simp only [Bool.not_true, Bool.and_false, Bool.false_eq_true, if_false]
      rcases stepped hne with ⟨c, more, rfl, hc, hstep⟩ | ⟨m, more, rfl, hm, hmax, hstep⟩ |
        ⟨hmax, hstep⟩
      · have hpos := length_pos_of_ne_nil (isChar_ne_nil hc)
        rw [length_append] at hturns
        obtain ⟨hall, hs⟩ := ih more (by omega)
        simp only [hstep, if_true, drop_left, take_left, length_append, hall]
        exact ⟨trivial, .char hc hs⟩
      · have hpos := length_pos_of_ne_nil hm
        rw [length_append] at hturns
        obtain ⟨hall, hs⟩ := ih more (by omega)
        have hnil := hmax []
        rw [List.append_nil] at hnil
        simp only [hstep, Bool.false_eq_true, if_false, drop_left, length_append, hall]
        exact ⟨trivial, .subpart hnil hs⟩
      · obtain ⟨hall, hs⟩ := ih [] (Nat.zero_le _)
        have hsub := Sanitised.subpart hmax hs
        rw [List.append_nil] at hsub
        simp only [hstep, Bool.false_eq_true, if_false, drop_length, hall]
        exact ⟨rfl, hsub⟩

/-! ### Stop strings -/

/-- The first place of a stop string. -/
structure FirstStop (stops : List (List UInt8)) (value : List UInt8) (pos : Nat) : Prop where
  here : ∃ stop ∈ stops, stop <+: value.drop pos
  first : ∀ j < pos, ∀ stop ∈ stops, ¬stop <+: value.drop j

def NoStop (stops : List (List UInt8)) (value : List UInt8) : Prop :=
  ∀ j, ∀ stop ∈ stops, ¬stop <+: value.drop j

/-- What a search for the stop strings says. -/
def Searched (stops : List (List UInt8)) (value : List UInt8) : Option Nat → Prop
  | some pos => FirstStop stops value pos
  | none => NoStop stops value

theorem stopPos_concat (stops : List (List UInt8)) (stop value : List UInt8) :
    (find stop value = none → stopPos (stops ++ [stop]) value = stopPos stops value) ∧
      ∀ pos, find stop value = some pos →
        (stopPos stops value = none → stopPos (stops ++ [stop]) value = some pos) ∧
        ∀ best, stopPos stops value = some best →
          stopPos (stops ++ [stop]) value = some (if pos < best then pos else best) := by
  unfold stopPos
  rw [foldl_append, foldl_cons, foldl_nil]
  generalize stops.foldl _ none = best
  refine ⟨fun hfind => ?_, fun pos hfind => ⟨fun hbest => ?_, fun best' hbest => ?_⟩⟩
  · rw [hfind]
  · rw [hfind, hbest]
  · rw [hfind, hbest]

theorem stopPos_spec (stops : List (List UInt8)) (value : List UInt8) :
    Searched stops value (stopPos stops value) := by
  induction stops using List.reverseRecOn with
  | nil => exact fun _ _ h => (not_mem_nil h).elim
  | append_singleton stops stop ih =>
    have hmem : ∀ s, s ∈ stops ++ [stop] → s ∈ stops ∨ s = stop := by
      intro s hs
      simpa using hs
    obtain ⟨hkeep, hfound⟩ := stopPos_concat stops stop value
    cases hfind : find stop value with
    | none =>
      have habsent := find_none hfind
      rw [hkeep hfind]
      cases hbest : stopPos stops value with
      | none =>
        rw [hbest] at ih
        intro j s hs
        rcases hmem s hs with hs | rfl
        · exact ih j s hs
        · exact habsent j
      | some best =>
        rw [hbest] at ih
        obtain ⟨⟨s, hs, hhere⟩, hfirst⟩ := ih
        refine ⟨⟨s, mem_append_left _ hs, hhere⟩, fun j hj s' hs' => ?_⟩
        rcases hmem s' hs' with hs' | rfl
        · exact hfirst j hj s' hs'
        · exact habsent j
    | some pos =>
      obtain ⟨hat, hbefore⟩ := find_some hfind
      have hself : stop ∈ stops ++ [stop] := mem_append_right _ mem_cons_self
      cases hbest : stopPos stops value with
      | none =>
        rw [hbest] at ih
        rw [(hfound pos hfind).1 hbest]
        refine ⟨⟨stop, hself, hat⟩, fun j hj s hs => ?_⟩
        rcases hmem s hs with hs | rfl
        · exact ih j s hs
        · exact hbefore j hj
      | some best =>
        rw [hbest] at ih
        obtain ⟨⟨s, hs, hhere⟩, hfirst⟩ := ih
        rw [(hfound pos hfind).2 best hbest]
        split
        · refine ⟨⟨stop, hself, hat⟩, fun j hj s' hs' => ?_⟩
          rcases hmem s' hs' with hs' | rfl
          · exact hfirst j (by omega) s' hs'
          · exact hbefore j hj
        · refine ⟨⟨s, mem_append_left _ hs, hhere⟩, fun j hj s' hs' => ?_⟩
          rcases hmem s' hs' with hs' | rfl
          · exact hfirst j hj s' hs'
          · exact hbefore j (by omega)

/-! ### The emitter -/

/-- An emitter that has not stopped on `input`: `n` bytes are consumed, no stop string is in the
    input, and none begins in what is consumed. -/
structure Going (stops : List (List UInt8)) (input : List UInt8) (e : TextEmitter) (n : Nat) :
    Prop where
  kept : e.stops = stops
  going : e.stopped = false
  le : n ≤ input.length
  pending : e.pending = input.drop n
  settled : Settled (input.take n) (input.drop n) e.output
  absent : NoStop stops input
  begun : ∀ j < n, ∀ stop ∈ stops, ¬input.drop j <+: stop

/-- An emitter that stopped while `piece` came after `before`. -/
structure Stopped (stops : List (List UInt8)) (before piece : List UInt8) (e : TextEmitter)
    (n : Nat) : Prop where
  stopped : e.stopped = true
  pending : e.pending = []
  absent : NoStop stops before
  first : FirstStop stops (before ++ piece) n
  le : n ≤ (before ++ piece).length
  sanitised : Sanitised ((before ++ piece).take n) e.output

variable {e : TextEmitter}

theorem append_of_stopPos (piece : List UInt8) (hgoing : e.stopped = false) :
    (∀ pos, stopPos e.stops (e.pending ++ piece) = some pos → e.append piece =
      { ({ e with pending := e.pending ++ piece } : TextEmitter).emitPrefix pos true with
        pending := [], stopped := true }) ∧
    (stopPos e.stops (e.pending ++ piece) = none → e.append piece =
      ({ e with pending := e.pending ++ piece } : TextEmitter).emitPrefix
        ((e.pending ++ piece).length - heldWidth e.stops (e.pending ++ piece)) false) := by
  rw [append, if_neg (by rw [hgoing]; decide)]
  dsimp only
  constructor
  · intro pos hpos
    rw [hpos]
  · intro hpos
    rw [hpos]

variable {stops : List (List UInt8)} {input : List UInt8} {n : Nat}

theorem append_going (h : Going stops input e n) (piece : List UInt8) :
    (∃ m, Going stops (input ++ piece) (e.append piece) m) ∨
      ∃ m, Stopped stops input piece (e.append piece) m := by
  obtain ⟨hstops, hgoing, hle, hpending, hsettled, habsent, hbegun⟩ := h
  have hdrop : (input ++ piece).drop n = input.drop n ++ piece := drop_append_of_le_length hle
  -- no stop string that stands in front of what is pending
  have hbefore : ∀ j < n, ∀ stop ∈ stops, ¬stop <+: (input ++ piece).drop j := by
    intro j hj stop hstop
    rw [drop_append_of_le_length (by omega)]
    exact not_prefix_append (habsent j stop hstop) (hbegun j hj stop hstop) piece
  obtain ⟨value, hvalue⟩ : ∃ value, value = (input ++ piece).drop n := ⟨_, rfl⟩
  have hat : ∀ j, value.drop j = (input ++ piece).drop (n + j) := by
    intro j
    rw [hvalue, drop_drop]
  have hsettled' : Settled ((input ++ piece).take n) value e.output := by
    rw [take_append_of_le_length hle]
    exact hsettled.of_prefix (by rw [hvalue, hdrop]; exact prefix_append _ _)
  have hlen : value.length = (input ++ piece).length - n := by rw [hvalue, length_drop]
  have hlen' : n ≤ (input ++ piece).length := by
    rw [length_append]
    omega
  obtain ⟨hcut, hrest⟩ := append_of_stopPos piece hgoing
  rw [hpending, hstops, ← hdrop, ← hvalue] at hcut hrest
  have hspec := stopPos_spec stops value
  cases hpos : stopPos stops value with
  | some pos =>
    rw [hpos] at hspec
    have happend := hcut pos hpos
    obtain ⟨⟨stop, hstop, hhere⟩, hfirst⟩ := hspec
    have hposle : n + pos ≤ (input ++ piece).length := by
      by_contra hlong
      have hnil : value.drop pos = [] := drop_eq_nil_of_le (by omega)
      rw [hnil, prefix_nil] at hhere
      exact habsent 0 stop hstop (hhere ▸ List.nil_prefix)
    obtain ⟨hall, hs⟩ := utf8Loop_end (min pos value.length) (value.take pos)
      (by rw [length_take])
    refine .inr ⟨n + pos, by rw [happend], by rw [happend], habsent, ⟨⟨stop, hstop, ?_⟩,
      fun j hj s hs' => ?_⟩, hposle, ?_⟩
    · rw [← hat]
      exact hhere
    · by_cases hjn : j < n
      · exact hbefore j hjn s hs'
      · have hsub := hfirst (j - n) (by omega) s hs'
        rw [hat] at hsub
        rwa [Nat.add_sub_cancel' (by omega)] at hsub
    · rw [happend, take_add, ← hvalue]
      exact hsettled' _ _ (.inl (List.take_prefix pos value)) hs
  | none =>
    rw [hpos] at hspec
    have happend := hrest hpos
    obtain ⟨hheld, -, hfree⟩ := heldWidth_spec fun stop hstop j => hspec j stop hstop
    obtain ⟨limit, hlimit⟩ : ∃ limit, limit = value.length - heldWidth stops value := ⟨_, rfl⟩
    rw [← hlimit] at happend hfree
    obtain ⟨hk, hs⟩ := utf8Loop_settled (min limit value.length)
      (value.take limit) (by rw [length_take])
    obtain ⟨k, hkdef⟩ : ∃ k, k = (utf8Loop false (min limit value.length)
      (value.take limit)).2 := ⟨_, rfl⟩
    rw [← hkdef] at hk hs
    rw [length_take] at hk
    have htake : (value.take limit).take k = value.take k := by
      rw [take_take]
      congr 1
      omega
    have hsettledk : Settled (value.take k) (value.drop k)
        (utf8Loop false (min limit value.length) (value.take limit)).1 := by
      rw [htake] at hs
      refine hs.of_prefix ?_
      rw [drop_take]
      exact List.take_prefix _ _
    refine .inl ⟨n + k, ⟨by rw [happend]; rfl, by rw [happend]; exact hgoing, by omega,
      ?_, ?_, fun j s hs' => ?_, fun j hj s hs' => ?_⟩⟩
    · rw [happend, ← hat]
      show value.drop _ = value.drop k
      rw [hkdef]
    · rw [happend, ← hat, take_add, ← hvalue]
      refine Settled.append ?_ hsettledk
      rwa [take_append_drop]
    · by_cases hjn : j < n
      · exact hbefore j hjn s hs'
      · have hsub := hspec (j - n) s hs'
        rw [hat] at hsub
        rwa [Nat.add_sub_cancel' (by omega)] at hsub
    · by_cases hjn : j < n
      · intro hpre
        rw [drop_append_of_le_length (by omega)] at hpre
        exact hbegun j hjn s hs' ((prefix_append _ _).trans hpre)
      · have hsub := hfree (j - n) (by omega) s hs'
        rw [hat] at hsub
        rwa [Nat.add_sub_cancel' (by omega)] at hsub

/-- Once stopped, nothing changes. -/
theorem append_stopped (h : e.stopped = true) (piece : List UInt8) : e.append piece = e := by
  rw [append, if_pos h]

theorem foldl_append_stopped (h : e.stopped = true) (pieces : List (List UInt8)) :
    pieces.foldl append e = e := by
  induction pieces with
  | nil => rfl
  | cons piece pieces ih => rw [foldl_cons, append_stopped h, ih]

/-- **All pieces**: either no stop string came, or one piece brought it. -/
theorem pieces_spec (h : Going stops input e n) (pieces : List (List UInt8)) :
    (∃ m, Going stops (input ++ pieces.flatten) (pieces.foldl append e) m) ∨
      ∃ before piece after m, input ++ pieces.flatten = before ++ piece ++ after ∧
        input <+: before ∧ Stopped stops before piece (pieces.foldl append e) m := by
  induction pieces generalizing input e n with
  | nil =>
    refine .inl ⟨n, ?_⟩
    rwa [flatten_nil, List.append_nil]
  | cons piece pieces ih =>
    rw [foldl_cons, flatten_cons, ← List.append_assoc]
    rcases append_going h piece with ⟨m, hgoing⟩ | ⟨m, hstopped⟩
    · rcases ih hgoing with hall | ⟨before, last, after, m', hsplit, hpre, hstop⟩
      · exact .inl hall
      · exact .inr ⟨before, last, after, m', hsplit,
          (prefix_append input piece).trans hpre, hstop⟩
    · refine .inr ⟨input, piece, pieces.flatten, m, rfl, prefix_rfl, ?_⟩
      rwa [foldl_append_stopped hstopped.stopped]

theorem make_going (stops : List (List UInt8)) :
    Going (stops.filter fun stop => stop ≠ []) [] (make stops) 0 := by
  refine ⟨rfl, rfl, Nat.le_refl _, rfl, Settled.nil _, fun j stop hstop hpre => ?_,
    fun j hj => absurd hj (Nat.not_lt_zero j)⟩
  rw [drop_nil, prefix_nil] at hpre
  simp [hpre] at hstop

theorem flush_going (h : Going stops input e n) :
    e.flush.stopped = false ∧ Sanitised input e.flush.output := by
  obtain ⟨-, hs⟩ := utf8Loop_end (min e.pending.length e.pending.length)
    (e.pending.take e.pending.length) (by rw [length_take])
  refine ⟨h.going, ?_⟩
  have hall := h.settled _ _ (.inl ?_) hs
  · rw [take_length, h.pending, take_append_drop] at hall
    rw [flush, emitPrefix, appendUtf8Prefix]
    rw [take_length, h.pending]
    exact hall
  · rw [take_length, h.pending]

theorem flush_stopped {before piece : List UInt8} (h : Stopped stops before piece e n) :
    e.flush = e := by
  rw [flush, emitPrefix, appendUtf8Prefix, h.pending]
  have hpending := h.pending
  obtain ⟨stops', output, pending, stopped⟩ := e
  obtain rfl : pending = [] := hpending
  simp [utf8Loop]

/-! ### Taking the output in between -/

theorem emitPrefix_output (e : TextEmitter) (o : List UInt8) (limit : Nat) (atEnd : Bool) :
    ({ e with output := o ++ e.output } : TextEmitter).emitPrefix limit atEnd =
      { e.emitPrefix limit atEnd with output := o ++ (e.emitPrefix limit atEnd).output } := by
  simp only [emitPrefix, List.append_assoc]

theorem append_output (e : TextEmitter) (o piece : List UInt8) :
    ({ e with output := o ++ e.output } : TextEmitter).append piece =
      { e.append piece with output := o ++ (e.append piece).output } := by
  unfold append
  split
  · rfl
  · dsimp only
    cases stopPos e.stops (e.pending ++ piece) with
    | none => exact emitPrefix_output { e with pending := e.pending ++ piece } o _ _
    | some pos =>
      dsimp only
      rw [emitPrefix_output { e with pending := e.pending ++ piece } o pos true]

/-- What a caller collects who takes the output after every piece. -/
def takeAll (e : TextEmitter) : List (List UInt8) → List UInt8
  | [] => e.flush.take.1
  | piece :: pieces => (e.append piece).take.1 ++ (e.append piece).take.2.takeAll pieces

theorem takeAll_eq (e : TextEmitter) (pieces : List (List UInt8)) :
    e.output ++ ({ e with output := [] } : TextEmitter).takeAll pieces =
      (pieces.foldl append e).flush.output := by
  have hback : ∀ e : TextEmitter,
      ({ ({ e with output := [] } : TextEmitter) with output := e.output ++ [] }) = e := by
    intro e
    rw [List.append_nil]
  induction pieces generalizing e with
  | nil =>
    have hflush := emitPrefix_output { e with output := [] } e.output e.pending.length true
    rw [hback] at hflush
    exact (congrArg TextEmitter.output hflush).symm
  | cons piece pieces ih =>
    have happend := append_output { e with output := [] } e.output piece
    rw [hback] at happend
    rw [foldl_cons, ← ih, takeAll, ← List.append_assoc, happend]
    rfl

/-- It does not matter when the output is taken. -/
theorem takeAll_make (stops pieces : List (List UInt8)) :
    (make stops).takeAll pieces = (emitAll stops pieces).output := by
  rw [emitAll, ← takeAll_eq]
  rfl

/-! ### The whole output -/

/-- The stop strings that the constructor keeps. -/
def kept (stops : List (List UInt8)) : List (List UInt8) := stops.filter fun stop => stop ≠ []

variable {stop : List UInt8}

theorem mem_kept : stop ∈ kept stops ↔ stop ∈ stops ∧ stop ≠ [] := by
  simp [kept]

/-- The two ways in which an output ends. -/
inductive Emitted (stops : List (List UInt8)) (input : List UInt8) (e : TextEmitter) : Prop
  | whole (going : e.stopped = false) (absent : NoStop (kept stops) input)
      (sanitised : Sanitised input e.output)
  | cut (before piece after : List UInt8) (n : Nat) (split : input = before ++ piece ++ after)
      (stopped : Stopped (kept stops) before piece e n)

theorem emitAll_cases (stops pieces : List (List UInt8)) :
    Emitted stops pieces.flatten (emitAll stops pieces) := by
  rcases pieces_spec (make_going stops) pieces with ⟨m, hgoing⟩ |
    ⟨before, piece, after, m, hsplit, -, hstopped⟩
  · rw [List.nil_append] at hgoing
    obtain ⟨hfalse, hs⟩ := flush_going hgoing
    exact .whole hfalse hgoing.absent hs
  · refine .cut before piece after m (by simpa using hsplit) ?_
    rw [emitAll, flush_stopped hstopped]
    exact hstopped

variable {value : List UInt8}

/-- In front of the first stop string there is none. -/
theorem FirstStop.not_infix (h : FirstStop stops value n) (hstop : stop ∈ stops) (hne : stop ≠ []) :
    ¬stop <:+: value.take n := by
  rintro ⟨xs, ys, hxs⟩
  have hlen := congrArg List.length hxs
  have hpos := length_pos_of_ne_nil hne
  simp only [length_append, length_take] at hlen
  refine h.first xs.length (by omega) stop hstop ⟨ys ++ value.drop n, ?_⟩
  have hvalue : value = xs ++ (stop ++ (ys ++ value.drop n)) := by
    calc value = value.take n ++ value.drop n := (take_append_drop n value).symm
      _ = xs ++ (stop ++ (ys ++ value.drop n)) := by rw [← hxs]; simp only [List.append_assoc]
  rw [hvalue, drop_left, ← hvalue]

theorem NoStop.not_infix (h : NoStop stops value) (hstop : stop ∈ stops) : ¬stop <:+: value := by
  rintro ⟨xs, ys, rfl⟩
  refine h xs.length stop hstop ?_
  rw [List.append_assoc, drop_left]
  exact prefix_append stop ys

/-- The output is the sanitised input, up to the first stop string that came complete; nothing
    that was emitted contains a stop string. -/
theorem emission_exact (stops pieces : List (List UInt8)) :
    ∃ n ≤ pieces.flatten.length, Sanitised (pieces.flatten.take n) (emitAll stops pieces).output ∧
      WellFormed (emitAll stops pieces).output ∧
      ((emitAll stops pieces).stopped = false → n = pieces.flatten.length) ∧
      ((emitAll stops pieces).stopped = true →
        ∃ stop ∈ stops, stop ≠ [] ∧ stop <+: pieces.flatten.drop n) ∧
      ∀ stop ∈ stops, stop ≠ [] → ¬stop <:+: pieces.flatten.take n := by
  rcases emitAll_cases stops pieces with ⟨hgoing, habsent, hs⟩ |
    ⟨before, piece, after, n, hsplit, hstopped⟩
  · refine ⟨pieces.flatten.length, Nat.le_refl _, ?_, hs.wellFormed, fun _ => rfl, fun h => ?_,
      fun stop hstop hne => ?_⟩
    · rwa [take_length]
    · exact absurd (hgoing.symm.trans h) (by decide)
    · rw [take_length]
      exact habsent.not_infix (mem_kept.mpr ⟨hstop, hne⟩)
  · have hle := hstopped.le
    have htake : pieces.flatten.take n = (before ++ piece).take n := by
      rw [hsplit, take_append_of_le_length hle]
    have hdrop : pieces.flatten.drop n = (before ++ piece).drop n ++ after := by
      rw [hsplit, drop_append_of_le_length hle]
    refine ⟨n, ?_, ?_⟩
    · rw [hsplit, length_append]
      omega
    rw [htake, hdrop]
    refine ⟨hstopped.sanitised, hstopped.sanitised.wellFormed, fun h => ?_, fun _ => ?_,
      fun stop hstop hne => hstopped.first.not_infix (mem_kept.mpr ⟨hstop, hne⟩) hne⟩
    · exact absurd (hstopped.stopped.symm.trans h) (by decide)
    · obtain ⟨stop, hstop, hhere⟩ := hstopped.first.here
      obtain ⟨hmem, hne⟩ := mem_kept.mp hstop
      exact ⟨stop, hmem, hne, hhere.trans (prefix_append _ after)⟩

example : (emitAll [[0x53, 0x54]] [[0x61, 0x80, 0x53], [0x54, 0x62]]).output =
    0x61 :: replacement := by decide

end TyloQuant.TextEmitter
