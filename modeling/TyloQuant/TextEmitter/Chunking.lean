import TyloQuant.TextEmitter.Emission

/-!
# Text emission and the split into pieces

An emitter stops at the piece that completes a stop string, and cuts at the first place where
one stands by then.  A longer stop string that began earlier, but is complete only later, wins
when both come in one piece and loses when they do not; otherwise the split does not matter.
-/

namespace TyloQuant.TextEmitter

open Lib.Utf8 List

/-- All splits of one input give the same output. -/
def SplitFree (stops : List (List UInt8)) : Prop :=
  ∀ pieces pieces' : List (List UInt8), pieces.flatten = pieces'.flatten →
    (emitAll stops pieces).output = (emitAll stops pieces').output ∧
      (emitAll stops pieces).stopped = (emitAll stops pieces').stopped

/-- No stop string is complete inside another one, unless a third one stands where that one
    begins and is complete by then. -/
def Separated (stops : List (List UInt8)) : Prop :=
  ∀ u t v : List UInt8, u ++ t ++ v ∈ stops → t ∈ stops → u ≠ [] → t ≠ [] → v ≠ [] →
    ∃ r ∈ stops, r ≠ [] ∧ r <+: u ++ t

variable {stops : List (List UInt8)} {input : List UInt8} {n : Nat}

/-- Seeing more of the input does not move the cut. -/
theorem Separated.cut_eq (h : Separated stops) {k l m : Nat} (hkl : k ≤ l)
    (hn : FirstStop (kept stops) (input.take k) n) (hm : FirstStop (kept stops) (input.take l) m) :
    m = n := by
  obtain ⟨⟨t, ht, htat⟩, hfirst⟩ := hn
  have hpre : input.take k <+: input.take l := take_prefix_take_left (by omega)
  have hge : ¬n < m := by
    intro hlt
    refine hm.first n hlt t ht (htat.trans ?_)
    rw [drop_take, drop_take]
    exact take_prefix_take_left (by omega)
  by_contra hne
  have hlt : m < n := by omega
  obtain ⟨⟨s, hs, hsat⟩, -⟩ := hm
  obtain ⟨hsmem, hsne⟩ := mem_kept.mp hs
  obtain ⟨htmem, htne⟩ := mem_kept.mp ht
  rw [drop_take] at hsat htat
  have hs' : s <+: input.drop m := hsat.trans (List.take_prefix _ _)
  have ht' : t <+: input.drop n := htat.trans (List.take_prefix _ _)
  have htlen : t.length ≤ k - n := htat.length_le.trans (length_take_le _ _)
  have htpos := length_pos_of_ne_nil htne
  -- `s` is not complete yet, since nothing stands in front of `t`
  have hslong : k - m < s.length := by
    by_contra hshort
    refine hfirst m hlt s hs ?_
    rw [drop_take]
    exact prefix_take_iff.mpr ⟨hs', by omega⟩
  have hsplit : (input.drop m).take (n - m) ++ t <+: s := by
    refine prefix_of_prefix_length_le (?_ : _ <+: input.drop m) hs' ?_
    · have hdrop : input.drop m = (input.drop m).take (n - m) ++ input.drop n := by
        have hsum : n = m + (n - m) := by omega
        conv_rhs => rw [hsum, ← drop_drop]
        rw [Nat.add_sub_cancel_left, take_append_drop]
      conv_rhs => rw [hdrop]
      exact (prefix_append_right_inj _).mpr ht'
    · rw [length_append, length_take]
      omega
  obtain ⟨v, hv⟩ := hsplit
  have hulen : ((input.drop m).take (n - m)).length = n - m := by
    have hle := ht'.length_le
    rw [length_drop] at hle
    rw [length_take, length_drop]
    omega
  have hvne : v ≠ [] := by
    rintro rfl
    have hlen := congrArg List.length hv
    rw [List.append_nil, length_append, hulen] at hlen
    omega
  have hune : (input.drop m).take (n - m) ≠ [] := by
    intro hnil
    rw [hnil, length_nil] at hulen
    omega
  obtain ⟨r, hr, hrne, hrpre⟩ := h _ t v (hv ▸ hsmem) htmem hune htne hvne
  refine hfirst m hlt r (mem_kept.mpr ⟨hr, hrne⟩) ?_
  rw [drop_take]
  refine prefix_take_iff.mpr ⟨(hrpre.trans ⟨v, hv⟩).trans hs', ?_⟩
  have hrlen := hrpre.length_le
  rw [length_append, hulen] at hrlen
  omega

variable {after before piece : List UInt8} {e : TextEmitter}

theorem Stopped.firstStop (h : Stopped stops before piece e n)
    (hsplit : input = before ++ piece ++ after) :
    FirstStop stops (input.take (before ++ piece).length) n := by
  rw [hsplit, take_left]
  exact h.first

/-- An input that holds a stop string stops the emitter, whatever the pieces. -/
theorem Stopped.not_absent (h : Stopped stops before piece e n)
    (hsplit : input = before ++ piece ++ after) :
    ¬NoStop stops input := by
  intro habsent
  obtain ⟨stop, hstop, hhere⟩ := h.first.here
  refine habsent n stop hstop ?_
  rw [hsplit, drop_append_of_le_length h.le]
  exact hhere.trans (prefix_append _ after)

theorem Separated.splitFree (h : Separated stops) : SplitFree stops := by
  intro pieces pieces' hflat
  have hcases := emitAll_cases stops pieces
  have hcases' := emitAll_cases stops pieces'
  rw [← hflat] at hcases'
  rcases hcases with ⟨hgoing, habsent, hs⟩ | ⟨before, piece, after, n, hsplit, hstopped⟩
  · rcases hcases' with ⟨hgoing', -, hs'⟩ | ⟨before', piece', after', n', hsplit', hstopped'⟩
    · exact ⟨hs.unique hs', hgoing.trans hgoing'.symm⟩
    · exact absurd habsent (hstopped'.not_absent hsplit')
  · rcases hcases' with ⟨-, habsent', -⟩ | ⟨before', piece', after', n', hsplit', hstopped'⟩
    · exact absurd habsent' (hstopped.not_absent hsplit)
    · have hcut : n' = n := by
        rcases Nat.le_total (before ++ piece).length (before' ++ piece').length with hle | hle
        · exact h.cut_eq hle (hstopped.firstStop hsplit) (hstopped'.firstStop hsplit')
        · exact (h.cut_eq hle (hstopped'.firstStop hsplit') (hstopped.firstStop hsplit)).symm
      have htake : (before ++ piece).take n = (before' ++ piece').take n' := by
        have hleft : pieces.flatten.take n = (before ++ piece).take n := by
          rw [hsplit]
          exact take_append_of_le_length hstopped.le
        have hright : pieces.flatten.take n' = (before' ++ piece').take n' := by
          rw [hsplit']
          exact take_append_of_le_length hstopped'.le
        rw [← hleft, ← hright, hcut]
      refine ⟨hstopped.sanitised.unique ?_, hstopped.stopped.trans hstopped'.stopped.symm⟩
      rw [htake]
      exact hstopped'.sanitised

/-- A stop string inside another one: the two splits of the longer one differ. -/
theorem SplitFree.separated (h : SplitFree stops) : Separated stops := by
  intro u t v hs ht hune htne hvne
  by_contra hnone
  have hfront : ∀ r ∈ kept stops, ¬r <+: u ++ t := by
    intro r hr hpre
    obtain ⟨hmem, hne⟩ := mem_kept.mp hr
    exact hnone ⟨r, hmem, hne, hpre⟩
  have hwhole := emitAll_cases stops [u ++ t ++ v]
  have hparts := emitAll_cases stops [u ++ t, v]
  have hflat : [u ++ t ++ v].flatten = [u ++ t, v].flatten := by simp
  obtain ⟨hout, -⟩ := h _ _ hflat
  have hskept : u ++ t ++ v ∈ kept stops := mem_kept.mpr ⟨hs, by simp [hune]⟩
  have htkept : t ∈ kept stops := mem_kept.mpr ⟨ht, htne⟩
  -- in one piece nothing is emitted
  have hempty : (emitAll stops [u ++ t ++ v]).output = [] := by
    rcases append_going (make_going stops) (u ++ t ++ v) with ⟨m, hgoing⟩ | ⟨m, hstopped⟩
    · exact absurd (prefix_rfl) (hgoing.absent 0 (u ++ t ++ v) hskept)
    · have hm : m = 0 := by
        by_contra hpos
        exact hstopped.first.first 0 (by omega) (u ++ t ++ v) hskept prefix_rfl
      have hs := hstopped.sanitised
      rw [hm, take_zero] at hs
      rw [emitAll, foldl_cons, foldl_nil, flush_stopped hstopped]
      exact hs.unique .nil
  -- in two pieces the cut is behind the first byte
  rcases append_going (make_going stops) (u ++ t) with ⟨m, hgoing⟩ | ⟨m, hstopped⟩
  · refine hgoing.absent u.length t htkept ?_
    rw [List.nil_append, drop_left]
  · have hm : m ≠ 0 := by
      rintro rfl
      obtain ⟨r, hr, hpre⟩ := hstopped.first.here
      exact hfront r hr hpre
    have hs := hstopped.sanitised
    have hne : ([] ++ (u ++ t)).take m ≠ [] := by
      rw [List.nil_append, ne_eq, take_eq_nil_iff]
      simp [hm, hune]
    refine hs.out_ne_nil hne ?_
    rw [← hempty, hout, emitAll, foldl_cons, foldl_cons, foldl_nil,
      append_stopped hstopped.stopped, flush_stopped hstopped]

/-- The split into pieces never matters exactly when no stop string is complete inside another
    one before any that begins there. -/
theorem split_free_iff (stops : List (List UInt8)) : SplitFree stops ↔ Separated stops :=
  ⟨SplitFree.separated, Separated.splitFree⟩

/-- The stop strings `abcd` and `c`: the input `abcd` in one piece gives nothing, and `ab` when
    its last byte comes later. -/
theorem split_matters : ¬SplitFree [[0x61, 0x62, 0x63, 0x64], [0x63]] := by
  intro h
  obtain ⟨hout, -⟩ := h [[0x61, 0x62, 0x63, 0x64]] [[0x61, 0x62, 0x63], [0x64]] rfl
  exact absurd hout (by decide)

end TyloQuant.TextEmitter
