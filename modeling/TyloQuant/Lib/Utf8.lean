import Mathlib.Data.List.Infix
import Mathlib.Data.List.TakeDrop
import Mathlib.Data.List.Forall2
import Mathlib.Data.UInt

/-!
# UTF-8 and its replacement of ill-formed bytes

The well-formed sequences of one code point are the rows of a table of byte ranges.  Where no
such sequence stands, the longest beginning of one, or else a single byte, is the maximal subpart
that a decoder replaces by U+FFFD.  `Sanitised` is the decoding of a whole string; it is a
function of the input.
-/

namespace TyloQuant.Lib.Utf8

open List

/-! ### Well-formed sequences -/

/-- An inclusive range of bytes. -/
abbrev Range := UInt8 × UInt8

def Range.Holds (r : Range) (b : UInt8) : Prop := r.1 ≤ b ∧ b ≤ r.2

instance (r : Range) (b : UInt8) : Decidable (r.Holds b) := by
  unfold Range.Holds
  infer_instance

/-- The bytes behind the first one, unless a row narrows the second. -/
def tail : Range := (0x80, 0xBF)

/-- The well-formed byte sequences, one row of ranges for each kind. -/
def table : List (List Range) := [[(0x00, 0x7F)], [(0xC2, 0xDF), tail],
  [(0xE0, 0xE0), (0xA0, 0xBF), tail],
  [(0xE1, 0xEC), tail, tail],
  [(0xED, 0xED), (0x80, 0x9F), tail],
  [(0xEE, 0xEF), tail, tail],
  [(0xF0, 0xF0), (0x90, 0xBF), tail, tail],
  [(0xF1, 0xF3), tail, tail, tail],
  [(0xF4, 0xF4), (0x80, 0x8F), tail, tail]]

/-- The encoding of one code point. -/
def IsChar (xs : List UInt8) : Prop := ∃ row ∈ table, List.Forall₂ Range.Holds row xs

/-- The encoding of a string. -/
def WellFormed (xs : List UInt8) : Prop :=
  ∃ cs : List (List UInt8), (∀ c ∈ cs, IsChar c) ∧ xs = cs.flatten

/-- Some encoding begins with these bytes. -/
def IsBegun (xs : List UInt8) : Prop := ∃ ys, IsChar (xs ++ ys)

/-- What the bytes behind the first have to be. -/
def tails (a : UInt8) : Option (List Range) :=
  (table.find? fun row => row.head?.any fun r => decide (r.Holds a)).map List.tail

theorem tails_iff (a : UInt8) (t : List Range) :
    tails a = some t ↔ ∃ row ∈ table, ∃ r, row = r :: t ∧ r.Holds a := by
  have hrow : ∀ n : Fin 256, ∀ row ∈ table, (row.head?.any fun r => decide (r.Holds (.ofFin n))) →
      tails (.ofFin n) = some row.tail := by decide +kernel
  constructor
  · intro h
    obtain ⟨row, hfind, rfl⟩ := Option.map_eq_some_iff.mp h
    have hmem := mem_of_find?_eq_some hfind
    have hhead := find?_some hfind
    cases row with
    | nil => simp at hhead
    | cons r row => exact ⟨r :: row, hmem, r, rfl, by simpa using hhead⟩
  · rintro ⟨row, hmem, r, rfl, hr⟩
    exact hrow a.toFin (r :: t) hmem (by simpa using hr)

variable {a : UInt8} {xs : List UInt8}

theorem isChar_cons : IsChar (a :: xs) ↔ ∃ t, tails a = some t ∧ List.Forall₂ Range.Holds t xs := by
  constructor
  · rintro ⟨row, hmem, hrow⟩
    obtain ⟨r, t, hr, ht, rfl⟩ := forall₂_cons_right_iff.mp hrow
    exact ⟨t, (tails_iff a t).mpr ⟨_, hmem, r, rfl, hr⟩, ht⟩
  · rintro ⟨t, htails, ht⟩
    obtain ⟨row, hmem, r, rfl, hr⟩ := (tails_iff a t).mp htails
    exact ⟨r :: t, hmem, .cons hr ht⟩

theorem not_isChar_nil : ¬IsChar [] := by
  rintro ⟨row, hmem, hrow⟩
  obtain rfl := forall₂_nil_right_iff.mp hrow
  revert hmem
  decide

variable {c : List UInt8}

theorem isChar_ne_nil (h : IsChar c) : c ≠ [] := by
  rintro rfl
  exact not_isChar_nil h

theorem isBegun_cons :
    IsBegun (a :: xs) ↔ ∃ t, tails a = some t ∧ ∃ ys, List.Forall₂ Range.Holds t (xs ++ ys) := by
  constructor
  · rintro ⟨ys, h⟩
    obtain ⟨t, ht, hholds⟩ := isChar_cons.mp h
    exact ⟨t, ht, ys, hholds⟩
  · rintro ⟨t, ht, ys, hholds⟩
    exact ⟨ys, isChar_cons.mpr ⟨t, ht, hholds⟩⟩

/-- A row of ranges can always be completed. -/
theorem exists_holds {t : List Range} (h : ∀ r ∈ t, r.Holds r.1) :
    ∃ ys, List.Forall₂ Range.Holds t ys := by
  induction t with
  | nil => exact ⟨[], .nil⟩
  | cons r t ih =>
    obtain ⟨ys, hys⟩ := ih fun r' hr' => h r' (mem_cons_of_mem r hr')
    exact ⟨r.1 :: ys, .cons (h r mem_cons_self) hys⟩

/-- No encoding is the beginning of another one. -/
theorem IsChar.eq_of_prefix {d : List UInt8} (hc : IsChar c) (hd : IsChar d) (h : c <+: d) :
    c = d := by
  cases c with
  | nil => exact absurd hc not_isChar_nil
  | cons a xs =>
    cases d with
    | nil => exact absurd (prefix_nil.mp h) (by simp)
    | cons b ys =>
      obtain ⟨rfl, hpre⟩ := cons_prefix_cons.mp h
      obtain ⟨t, ht, hxs⟩ := isChar_cons.mp hc
      obtain ⟨t', ht', hys⟩ := isChar_cons.mp hd
      obtain rfl := Option.some.inj (ht.symm.trans ht')
      rw [hpre.eq_of_length (hxs.length_eq.symm.trans hys.length_eq)]

/-! ### Sanitisation -/

/-- U+FFFD. -/
def replacement : List UInt8 := [0xEF, 0xBF, 0xBD]

theorem isChar_replacement : IsChar replacement :=
  ⟨[(0xEE, 0xEF), tail, tail], by decide, .cons (by decide) (.cons (by decide)
    (.cons (by decide) .nil))⟩

/-- The maximal subpart `m` of an ill-formed string `m ++ xs`: no encoding stands there, and
    nothing longer than `m` begins one. -/
structure MaximalSubpart (m xs : List UInt8) : Prop where
  ill : ∀ c, IsChar c → ¬c <+: m ++ xs
  subpart : m.length = 1 ∨ m ≠ [] ∧ IsBegun m
  maximal : ∀ m', m' <+: m ++ xs → IsBegun m' → m'.length ≤ m.length

/-- Every maximal ill-formed subpart is replaced, and the rest is copied. -/
inductive Sanitised : List UInt8 → List UInt8 → Prop
  | nil : Sanitised [] []
  | char {c xs out : List UInt8} : IsChar c → Sanitised xs out → Sanitised (c ++ xs) (c ++ out)
  | subpart {m xs out : List UInt8} : MaximalSubpart m xs → Sanitised xs out →
      Sanitised (m ++ xs) (replacement ++ out)

variable {m : List UInt8}

theorem MaximalSubpart.ne_nil (h : MaximalSubpart m xs) : m ≠ [] := by
  rcases h.subpart with hone | ⟨hne, -⟩
  · rintro rfl
    cases hone
  · exact hne

variable {out : List UInt8}

theorem Sanitised.wellFormed (h : Sanitised xs out) : WellFormed out := by
  induction h with
  | nil => exact ⟨[], fun _ h => (not_mem_nil h).elim, rfl⟩
  | @char c xs out hc _ ih =>
    obtain ⟨cs, hcs, rfl⟩ := ih
    refine ⟨c :: cs, fun d hd => ?_, rfl⟩
    rcases mem_cons.mp hd with rfl | hd
    · exact hc
    · exact hcs d hd
  | subpart _ _ ih =>
    obtain ⟨cs, hcs, rfl⟩ := ih
    refine ⟨replacement :: cs, fun d hd => ?_, rfl⟩
    rcases mem_cons.mp hd with rfl | hd
    · exact isChar_replacement
    · exact hcs d hd

theorem MaximalSubpart.unique {m' xs' : List UInt8} (h : MaximalSubpart m xs)
    (h' : MaximalSubpart m' xs') (heq : m ++ xs = m' ++ xs') : m = m' := by
  have hpre : m <+: m' ++ xs' := heq ▸ prefix_append m xs
  have hpre' : m' <+: m ++ xs := heq ▸ prefix_append m' xs'
  have hpos := length_pos_of_ne_nil h.ne_nil
  have hpos' := length_pos_of_ne_nil h'.ne_nil
  have hlen : m.length = m'.length := by
    rcases h.subpart with hone | ⟨-, hbegun⟩
    · rcases h'.subpart with hone' | ⟨-, hbegun'⟩
      · omega
      · have hle := h.maximal m' hpre' hbegun'
        omega
    · have hle := h'.maximal m hpre hbegun
      rcases h'.subpart with hone' | ⟨-, hbegun'⟩
      · omega
      · have hle' := h.maximal m' hpre' hbegun'
        omega
  rcases List.prefix_or_prefix_of_prefix hpre (prefix_append m' xs') with hp | hp
  · exact hp.eq_of_length hlen
  · exact (hp.eq_of_length hlen.symm).symm

/-- **Sanitisation is a function** of its input. -/
theorem Sanitised.unique {out' : List UInt8} (h : Sanitised xs out) (h' : Sanitised xs out') :
    out = out' := by
  induction h generalizing out' with
  | nil =>
    generalize hnil : ([] : List UInt8) = xs at h'
    cases h' with
    | nil => rfl
    | char hc => exact absurd (append_eq_nil_iff.mp hnil.symm).1 (isChar_ne_nil hc)
    | subpart hm => exact absurd (append_eq_nil_iff.mp hnil.symm).1 hm.ne_nil
  | @char c xs out hc _ ih =>
    generalize heq : c ++ xs = ys at h'
    cases h' with
    | nil => exact absurd (append_eq_nil_iff.mp heq).1 (isChar_ne_nil hc)
    | @char d _ _ hd hrest =>
      have hsame : c = d := by
        rcases List.prefix_or_prefix_of_prefix (prefix_append c xs)
          (heq ▸ prefix_append d _) with hp | hp
        · exact hc.eq_of_prefix hd hp
        · exact (hd.eq_of_prefix hc hp).symm
      subst hsame
      obtain rfl := append_cancel_left heq
      rw [ih hrest]
    | subpart hm => exact absurd (heq ▸ prefix_append c xs) (hm.ill c hc)
  | @subpart m xs out hm _ ih =>
    generalize heq : m ++ xs = ys at h'
    cases h' with
    | nil => exact absurd (append_eq_nil_iff.mp heq).1 hm.ne_nil
    | char hd => exact absurd (heq ▸ prefix_append _ _) (hm.ill _ hd)
    | subpart hm' hrest =>
      obtain rfl := hm.unique hm' heq
      obtain rfl := append_cancel_left heq
      rw [ih hrest]

theorem Sanitised.out_ne_nil (h : Sanitised xs out) (hne : xs ≠ []) : out ≠ [] := by
  cases h with
  | nil => exact absurd rfl hne
  | char hc =>
    exact fun hnil => isChar_ne_nil hc (append_eq_nil_iff.mp hnil).1
  | subpart => exact fun hnil => by cases (append_eq_nil_iff.mp hnil).1

end TyloQuant.Lib.Utf8
