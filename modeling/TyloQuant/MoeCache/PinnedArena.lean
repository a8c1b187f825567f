import Mathlib.Algebra.GroupWithZero.Nat
import Mathlib.Data.List.Sort
import Mathlib.Data.List.TakeWhile
import TyloQuant.Lib.Tiling
import TyloQuant.Lib.Transition

/-!
# The pinned expert arena

`MoePinnedExpertArena` hands out intervals of one pinned allocation.  Each free interval is in two
indexes, in `free` under its offset and in `fits` under its size.  An interval that comes back
merges with its free neighbours on both sides before it goes into both.
-/

namespace TyloQuant.MoePinnedExpertArena

open List

/-- `SIZE_MAX`. -/
def sizeMax : Nat := 18446744073709551615

/-! ### The state -/

/-- `State`: the free intervals in the order of their offsets, each with its size, and in `fits`
    in the order of their sizes, each with its offset. -/
structure State where
  free : List (Nat × Nat)
  fits : List (Nat × Nat)
  used : Nat := 0
deriving DecidableEq, Repr

def State.new (bytes : Nat) : State := { free := [(0, bytes)], fits := [(bytes, 0)] }

/-- `free.insert`: an entry goes to its place, unless its offset is there. -/
def insertFree (entry : Nat × Nat) (free : List (Nat × Nat)) : List (Nat × Nat) :=
  let after := free.dropWhile (·.1 < entry.1)
  if after.head?.any (·.1 = entry.1) then free
  else free.takeWhile (·.1 < entry.1) ++ entry :: after

/-- The order of the pairs in `fits`. -/
def NotAfter (a b : Nat × Nat) : Prop := a.1 < b.1 ∨ a.1 = b.1 ∧ a.2 ≤ b.2

instance : DecidableRel NotAfter := fun _ _ => inferInstanceAs (Decidable (_ ∨ _ ∧ _))

/-- `fits.insert`. -/
def insertFit (entry : Nat × Nat) (fits : List (Nat × Nat)) : List (Nat × Nat) :=
  if entry ∈ fits then fits else fits.orderedInsert NotAfter entry

def roundUp (bytes : Nat) : Nat := (bytes + 15) / 16 * 16

/-- `allocate`: the block, if there is one, and the state after the call.  It is `none` when the
    interval of an entry of `fits` is not in `free`, which the code does not check. -/
def State.allocate (s : State) (bytes : Nat) : Option (Option (Nat × Nat) × State) :=
  if bytes = 0 ∨ sizeMax - 15 < bytes then some (none, s)
  else
    let bytes := roundUp bytes
    match s.fits.find? (bytes ≤ ·.1) with
    | none => some (none, s)
    | some fit =>
      match s.free.find? (·.1 = fit.2) with
      | none => none
      | some entry =>
        if entry.2 = bytes then
          some (some (entry.1, bytes),
            { free := s.free.erase entry, fits := s.fits.erase fit, used := s.used + bytes })
        else
          let rest := (entry.1 + bytes, entry.2 - bytes)
          some (some (entry.1, bytes),
            { free := insertFree rest (s.free.erase entry)
              fits := insertFit (rest.2, rest.1) (s.fits.erase fit)
              used := s.used + bytes })

/-- An interval on its way back, with the free intervals before and after it. -/
structure Returning where
  interval : Nat × Nat
  fits : List (Nat × Nat)
  before : List (Nat × Nat)
  after : List (Nat × Nat)

def Returning.mergeLeft (r : Returning) : Returning :=
  match r.before.getLast? with
  | none => r
  | some previous =>
    if previous.1 + previous.2 = r.interval.1 then
      { r with
        fits := r.fits.erase (previous.2, previous.1)
        interval := (previous.1, r.interval.2 + previous.2)
        before := r.before.dropLast }
    else r

def Returning.mergeRight (r : Returning) : Returning :=
  match r.after with
  | [] => r
  | next :: after =>
    if r.interval.1 + r.interval.2 = next.1 then
      { r with
        fits := r.fits.erase (next.2, next.1)
        interval := (r.interval.1, r.interval.2 + next.2)
        after := after }
    else r

/-- `~Block`. -/
def State.drop (s : State) (interval : Nat × Nat) : State :=
  let r := (Returning.mk interval s.fits (s.free.takeWhile (·.1 < interval.1))
    (s.free.dropWhile (·.1 < interval.1))).mergeLeft.mergeRight
  { free := insertFree r.interval (r.before ++ r.after)
    fits := insertFit (r.interval.2, r.interval.1) r.fits
    used := s.used - interval.2 }

/-! ### The two indexes -/

variable {bytes : Nat} {s : State} {l l₁ l₂ live fits : List (Nat × Nat)} {e : Nat × Nat}

/-- The first interval ends before the second begins, and not where it begins. -/
def Gap (a b : Nat × Nat) : Prop := a.1 + a.2 < b.1

theorem middle_perm : (l₁ ++ e :: l₂ ++ live).Perm (e :: (l₁ ++ l₂ ++ live)) := by
  simp only [List.append_assoc, cons_append]
  exact perm_middle

theorem split_of_mem (h : l.Pairwise Gap) (he : e ∈ l) :
    ∃ l₁ l₂, l = l₁ ++ e :: l₂ ∧ l.erase e = l₁ ++ l₂ ∧ l.find? (·.1 = e.1) = some e ∧
      (l₁ ++ l₂).Pairwise Gap ∧ (∀ a ∈ l₁, a.1 + a.2 < e.1) ∧ ∀ b ∈ l₂, e.1 + e.2 < b.1 := by
  obtain ⟨l₁, l₂, rfl⟩ := append_of_mem he
  obtain ⟨-, hcons, hbefore⟩ := pairwise_append.mp h
  have hl : ∀ a ∈ l₁, a.1 + a.2 < e.1 := fun a ha => hbefore a ha e mem_cons_self
  have hnot : e ∉ l₁ := fun hmem => by
    have := hl e hmem
    omega
  refine ⟨l₁, l₂, rfl, ?_, ?_, ?_, hl, (pairwise_cons.mp hcons).1⟩
  · rw [erase_append_right _ hnot, erase_cons_head]
  · have hnone : l₁.find? (·.1 = e.1) = none := by
      refine find?_eq_none.mpr fun a ha => ?_
      have := hl a ha
      simp only [decide_eq_true_eq]
      omega
    rw [find?_append, hnone, Option.none_or, find?_cons_of_pos (by simp)]
  · exact h.sublist (List.Sublist.append_left (sublist_cons_self e l₂) l₁)

theorem apart_insert (h : (l₁ ++ l₂).Pairwise Gap) (hl : ∀ a ∈ l₁, a.1 + a.2 < e.1)
    (hr : ∀ b ∈ l₂, e.1 + e.2 < b.1) : (l₁ ++ e :: l₂).Pairwise Gap := by
  obtain ⟨h₁, h₂, h₁₂⟩ := pairwise_append.mp h
  exact pairwise_append.mpr ⟨h₁, pairwise_cons.mpr ⟨hr, h₂⟩, fun a ha =>
    forall_mem_cons.mpr ⟨hl a ha, h₁₂ a ha⟩⟩

theorem erase_fit (hsame : fits.Perm ((l₁ ++ e :: l₂).map Prod.swap)) :
    (fits.erase (e.2, e.1)).Perm ((l₁ ++ l₂).map Prod.swap) := by
  have hcons : ((l₁ ++ e :: l₂).map Prod.swap).Perm (e.swap :: (l₁ ++ l₂).map Prod.swap) :=
    perm_middle.map Prod.swap
  exact (cons_perm_iff_perm_erase.mp (hsame.trans hcons).symm).2.symm

theorem insert_spec (hsame : fits.Perm ((l₁ ++ l₂).map Prod.swap)) (hl : ∀ a ∈ l₁, a.1 < e.1)
    (hr : ∀ b ∈ l₂, e.1 < b.1) :
    insertFree e (l₁ ++ l₂) = l₁ ++ e :: l₂ ∧
      (insertFit (e.2, e.1) fits).Perm ((l₁ ++ e :: l₂).map Prod.swap) := by
  constructor
  · have hpos : ∀ a ∈ l₁, decide (a.1 < e.1) = true := fun a ha => decide_eq_true (hl a ha)
    unfold insertFree
    rw [takeWhile_append_of_pos hpos, dropWhile_append_of_pos hpos]
    cases l₂ with
    | nil => simp
    | cons b l₂ =>
      have hb := hr b mem_cons_self
      rw [dropWhile_cons_of_neg (by simp; omega), takeWhile_cons_of_neg (by simp; omega),
        List.append_nil]
      exact if_neg (by simp; omega)
  · have hnot : (e.2, e.1) ∉ fits := fun hmem => by
      obtain ⟨a, ha, hswap⟩ := mem_map.mp (hsame.mem_iff.mp hmem)
      have h₁ : a.1 = e.1 := congrArg Prod.snd hswap
      rcases mem_append.mp ha with ha | ha
      · exact Nat.ne_of_lt (hl a ha) h₁
      · exact Nat.ne_of_gt (hr a ha) h₁
    rw [insertFit, if_neg hnot]
    refine (perm_orderedInsert NotAfter _ fits).trans ?_
    exact ((hsame.cons (e.2, e.1)).trans (perm_middle.map Prod.swap).symm :)

/-! ### Allocation -/

/-- The free intervals and those of the live blocks share the arena among them, and the indexes
    agree. -/
structure State.Sound (bytes : Nat) (s : State) (live : List (Nat × Nat)) : Prop where
  apart : s.free.Pairwise Gap
  same : s.fits.Perm (s.free.map Prod.swap)
  tiles : Tiles bytes (s.free ++ live)
  positive : ∀ i ∈ live, 0 < i.2
  freePositive : 0 < bytes → ∀ i ∈ s.free, 0 < i.2
  aligned : ∀ i ∈ s.free ++ live, i.1 % 16 = 0
  used : s.used = (live.map (·.2)).sum

theorem sound_new (bytes : Nat) : (State.new bytes).Sound bytes [] where
  apart := pairwise_singleton _ _
  same := .refl _
  tiles := Tiles.whole bytes
  positive := by simp
  freePositive := by simp [State.new]
  aligned := by simp [State.new]
  used := rfl

theorem State.Sound.perm (h : s.Sound bytes live) {live' : List (Nat × Nat)}
    (hperm : live.Perm live') : s.Sound bytes live' where
  apart := h.apart
  same := h.same
  tiles := h.tiles.perm (hperm.append_left _)
  positive i hi := h.positive i (hperm.mem_iff.mpr hi)
  freePositive := h.freePositive
  aligned i hi := h.aligned i ((hperm.append_left _).mem_iff.mpr hi)
  used := h.used.trans (hperm.map _).sum_nat

theorem le_roundUp (n : Nat) : n ≤ roundUp n := by
  unfold roundUp
  omega

theorem State.Sound.parts (h : s.Sound bytes live) (hfree : s.free = l₁ ++ e :: l₂)
    (hpos : 0 < e.2) :
    Tiles bytes (e :: (l₁ ++ l₂ ++ live)) ∧ (∀ i ∈ l₁ ++ l₂, 0 < i.2) ∧
      ∀ i ∈ e :: (l₁ ++ l₂ ++ live), i.1 % 16 = 0 := by
  have hperm : (s.free ++ live).Perm (e :: (l₁ ++ l₂ ++ live)) := hfree ▸ middle_perm
  have htiles := h.tiles.perm hperm
  have hbytes := htiles.inside mem_cons_self hpos
  refine ⟨htiles, fun i hi => h.freePositive (by omega) i ?_,
    fun i hi => h.aligned i (hperm.mem_iff.mpr hi)⟩
  rw [hfree]
  simp only [mem_append, mem_cons] at hi ⊢
  tauto

/-- An allocation fails only when no free interval is large enough, and then changes nothing. -/
theorem State.Sound.allocate (h : s.Sound bytes live) (hbytes : bytes ≤ sizeMax) (n : Nat) :
    (∃ i s', s.allocate n = some (some i, s') ∧ s'.Sound bytes (i :: live) ∧ n ≤ i.2 ∧
      ∃ e ∈ s.free, roundUp n ≤ e.2) ∨
    s.allocate n = some (none, s) ∧ (0 < n → ∀ e ∈ s.free, e.2 < roundUp n) := by
  unfold State.allocate
  split
  · refine .inr ⟨rfl, fun hn e he => Nat.lt_of_not_le fun hle => ?_⟩
    have := le_roundUp n
    have := h.tiles.inside (mem_append_left live he) (by omega)
    simp only [roundUp, sizeMax] at *
    omega
  · dsimp only
    split
    · rename_i hnone
      refine .inr ⟨rfl, fun hn e he => ?_⟩
      have := find?_eq_none.mp hnone e.swap (h.same.mem_iff.mpr (mem_map_of_mem he))
      simpa using this
    · rename_i hsize _ fit hfit
      obtain ⟨⟨o, size⟩, he, rfl⟩ :=
        mem_map.mp (h.same.mem_iff.mp (mem_of_find?_eq_some hfit))
      have hle : roundUp n ≤ size := by simpa using find?_some hfit
      obtain ⟨l₁, l₂, hfree, herase, hfind, happart, hl, hr⟩ := split_of_mem h.apart he
      have hn : 0 < roundUp n := by
        have := le_roundUp n
        omega
      obtain ⟨htiles, hpos, haligned⟩ := h.parts hfree (Nat.lt_of_lt_of_le hn hle)
      have hsame := erase_fit (hfree ▸ h.same)
      have hused : s.used + roundUp n = (((o, roundUp n) :: live).map (·.2)).sum := by
        rw [h.used, map_cons, sum_cons, Nat.add_comm]
      have hlive : ∀ i ∈ (o, roundUp n) :: live, 0 < i.2 :=
        forall_mem_cons.mpr ⟨hn, h.positive⟩
      refine .inl ?_
      rw [show s.free.find? (·.1 = (o, size).swap.2) = some (o, size) from hfind]
      dsimp only
      by_cases hexact : size = roundUp n
      · rw [if_pos hexact]
        subst hexact
        refine ⟨_, _, rfl, ⟨?_, ?_, ?_, hlive, fun _ => ?_, ?_, hused⟩, le_roundUp n, _, he, hle⟩
        · exact herase ▸ happart
        · exact herase ▸ hsame
        · exact herase ▸ htiles.perm perm_middle.symm
        · exact herase ▸ hpos
        · exact fun i hi => haligned i (perm_middle.mem_iff.mp (herase ▸ hi))
      · have hrest : roundUp n < size := Nat.lt_of_le_of_ne hle (Ne.symm hexact)
        rw [if_neg hexact, herase]
        have hleft : ∀ a ∈ l₁, a.1 + a.2 < o + roundUp n := fun a ha =>
          Nat.lt_add_right _ (hl a ha)
        have hright : ∀ b ∈ l₂, o + roundUp n + (size - roundUp n) < b.1 := fun b hb => by
          have : o + size < b.1 := hr b hb
          omega
        obtain ⟨hinsert, hfits⟩ := @insert_spec _ _ _ (o + roundUp n, size - roundUp n) hsame
          (fun a ha => Nat.lt_of_le_of_lt (Nat.le_add_right _ _) (hleft a ha))
          (fun b hb => Nat.lt_of_le_of_lt (Nat.le_add_right _ _) (hright b hb))
        have hperm : (l₁ ++ (o + roundUp n, size - roundUp n) :: l₂ ++ (o, roundUp n) :: live).Perm
            ((o, roundUp n) :: (o + roundUp n, size - roundUp n) :: (l₁ ++ l₂ ++ live)) :=
          perm_middle.trans (middle_perm.cons _)
        rw [hinsert]
        refine ⟨_, _, rfl, ⟨apart_insert happart hleft hright, hfits, ?_, hlive, fun _ i hi => ?_,
          fun i hi => ?_, hused⟩, le_roundUp n, _, he, hle⟩
        · rw [← Nat.add_sub_cancel' hle] at htiles
          exact (Tiles.cut.mp htiles).perm hperm.symm
        · rcases mem_cons.mp (perm_middle.mem_iff.mp hi) with rfl | hi
          · exact Nat.sub_pos_of_lt hrest
          · exact hpos i hi
        · have hoffset : o % 16 = 0 := haligned _ mem_cons_self
          rcases mem_cons.mp (hperm.mem_iff.mp hi) with rfl | hi
          · exact hoffset
          · rcases mem_cons.mp hi with rfl | hi
            · simp only [roundUp]
              omega
            · exact haligned i (mem_cons_of_mem _ hi)

/-! ### A block comes back -/

/-- The interval on its way back lies between its neighbours, with the rest of the arena around
    it. -/
structure Returning.Placed (bytes : Nat) (live : List (Nat × Nat)) (r : Returning) : Prop where
  apart : (r.before ++ r.after).Pairwise Gap
  left : ∀ e ∈ r.before, e.1 + e.2 ≤ r.interval.1
  right : ∀ e ∈ r.after, r.interval.1 + r.interval.2 ≤ e.1
  same : r.fits.Perm ((r.before ++ r.after).map Prod.swap)
  tiles : Tiles bytes (r.interval :: (r.before ++ r.after ++ live))
  proper : ∀ e ∈ r.interval :: (r.before ++ r.after), 0 < e.2 ∧ e.1 % 16 = 0

variable {r : Returning}

theorem Returning.Placed.absorb (h : r.Placed bytes live)
    (hshape : r.before ++ r.after = l₁ ++ e :: l₂) :
    (l₁ ++ l₂).Pairwise Gap ∧ (r.fits.erase (e.2, e.1)).Perm ((l₁ ++ l₂).map Prod.swap) ∧
      Tiles bytes (e :: r.interval :: (l₁ ++ l₂ ++ live)) ∧
      ∀ i ∈ e :: r.interval :: (l₁ ++ l₂), 0 < i.2 ∧ i.1 % 16 = 0 := by
  have hperm : (r.interval :: (r.before ++ r.after)).Perm (e :: r.interval :: (l₁ ++ l₂)) := by
    rw [hshape]
    exact (perm_middle.cons _).trans (.swap _ _ _)
  refine ⟨?_, erase_fit (hshape ▸ h.same), h.tiles.perm ?_,
    fun i hi => h.proper i (hperm.mem_iff.mpr hi)⟩
  · exact (hshape ▸ h.apart).sublist (List.Sublist.append_left (sublist_cons_self e l₂) l₁)
  · exact hperm.append_right live

theorem Returning.Placed.mergeLeft (h : r.Placed bytes live) :
    r.mergeLeft.Placed bytes live ∧
      ∀ e ∈ r.mergeLeft.before, e.1 + e.2 < r.mergeLeft.interval.1 := by
  obtain ⟨⟨o, n⟩, fits, before, after⟩ := r
  obtain rfl | ⟨before, ⟨p, m⟩, rfl⟩ := before.eq_nil_or_concat'
  · exact ⟨h, fun e he => absurd he not_mem_nil⟩
  · have hshape : before ++ [(p, m)] ++ after = before ++ (p, m) :: after := by
      rw [List.append_assoc, singleton_append]
    have hlast : p + m ≤ o := h.left (p, m) (by simp)
    have hgaps : ∀ e ∈ before, e.1 + e.2 < p := fun e he =>
      (pairwise_append.mp (pairwise_append.mp h.apart).1).2.2 e he (p, m)
        mem_cons_self
    unfold Returning.mergeLeft
    simp only [getLast?_concat, dropLast_concat]
    split
    · rename_i hmeet
      obtain ⟨happart, hsame, htiles, hproper⟩ := h.absorb hshape
      obtain ⟨⟨hm, hp⟩, hproper⟩ := forall_mem_cons.mp hproper
      obtain ⟨-, hproper⟩ := forall_mem_cons.mp hproper
      refine ⟨⟨happart, fun e he => Nat.le_of_lt (hgaps e he), fun e he => ?_, hsame, ?_,
        forall_mem_cons.mpr ⟨⟨by simp only; omega, hp⟩, hproper⟩⟩, hgaps⟩
      · have : o + n ≤ e.1 := h.right e he
        simp only
        omega
      · subst hmeet
        rw [Nat.add_comm n]
        exact Tiles.cut.mpr htiles
    · rename_i hmeet
      refine ⟨h, fun e he => ?_⟩
      rcases mem_append.mp he with he | he
      · have := hgaps e he
        simp only
        omega
      · rw [mem_singleton.mp he]
        exact Nat.lt_of_le_of_ne hlast hmeet

theorem Returning.Placed.mergeRight (h : r.Placed bytes live)
    (hleft : ∀ e ∈ r.before, e.1 + e.2 < r.interval.1) :
    r.mergeRight.Placed bytes live ∧
      (∀ e ∈ r.mergeRight.before, e.1 + e.2 < r.mergeRight.interval.1) ∧
      ∀ e ∈ r.mergeRight.after, r.mergeRight.interval.1 + r.mergeRight.interval.2 < e.1 := by
  obtain ⟨⟨o, n⟩, fits, before, _ | ⟨⟨p, m⟩, after⟩⟩ := r
  · exact ⟨h, hleft, fun e he => absurd he not_mem_nil⟩
  · have hnext : o + n ≤ p := h.right (p, m) mem_cons_self
    have hgaps : ∀ e ∈ after, p + m < e.1 :=
      (pairwise_cons.mp (pairwise_append.mp h.apart).2.1).1
    unfold Returning.mergeRight
    dsimp only
    split
    · rename_i hmeet
      obtain ⟨happart, hsame, htiles, hproper⟩ := h.absorb rfl
      obtain ⟨-, hproper⟩ := forall_mem_cons.mp hproper
      obtain ⟨⟨hn, ho⟩, hproper⟩ := forall_mem_cons.mp hproper
      have hafter : ∀ e ∈ after, o + (n + m) < e.1 := fun e he => by
        have := hgaps e he
        omega
      refine ⟨⟨happart, h.left, fun e he => Nat.le_of_lt (hafter e he), hsame, ?_,
        forall_mem_cons.mpr ⟨⟨Nat.add_pos_left hn m, ho⟩, hproper⟩⟩, hleft, hafter⟩
      subst hmeet
      exact Tiles.cut.mpr (htiles.perm (.swap _ _ _))
    · rename_i hmeet
      refine ⟨h, hleft, forall_mem_cons.mpr ⟨Nat.lt_of_le_of_ne hnext hmeet, fun e he => ?_⟩⟩
      have := hgaps e he
      simp only
      omega

theorem le_of_mem_dropWhile (h : l.Pairwise Gap) {offset : Nat} :
    ∀ e ∈ l.dropWhile (·.1 < offset), offset ≤ e.1 := by
  induction l with
  | nil => exact fun e he => absurd he not_mem_nil
  | cons a l ih =>
    obtain ⟨hgaps, hl⟩ := pairwise_cons.mp h
    rw [dropWhile_cons]
    split
    · exact ih hl
    · rename_i hstop
      have hle : offset ≤ a.1 := by simpa using hstop
      refine forall_mem_cons.mpr ⟨hle, fun e he => ?_⟩
      have : a.1 + a.2 < e.1 := hgaps e he
      omega

theorem State.Sound.drop {i : Nat × Nat} (h : s.Sound bytes (i :: live)) :
    (s.drop i).Sound bytes live := by
  have hfree := @takeWhile_append_dropWhile _ (fun e => decide (e.1 < i.1)) s.free
  have htiles : Tiles bytes (i :: (s.free ++ live)) := h.tiles.perm perm_middle
  have hpos : 0 < i.2 := h.positive i mem_cons_self
  have hbytes := htiles.inside mem_cons_self hpos
  have hproper : ∀ e ∈ i :: s.free, 0 < e.2 ∧ e.1 % 16 = 0 := forall_mem_cons.mpr
    ⟨⟨hpos, h.aligned i (by simp)⟩, fun e he =>
      ⟨h.freePositive (by omega) e he, h.aligned e (mem_append_left _ he)⟩⟩
  have hmeet : ∀ e ∈ s.free, e.1 + e.2 ≤ i.1 ∨ i.1 + i.2 ≤ e.1 := fun e he =>
    ((pairwise_cons.mp htiles.disjoint).1 e (mem_append_left _ he) hpos
      (hproper e (mem_cons_of_mem _ he)).1).symm
  have hstart : (Returning.mk i s.fits (s.free.takeWhile (·.1 < i.1))
      (s.free.dropWhile (·.1 < i.1))).Placed bytes live := by
    refine ⟨hfree.symm ▸ h.apart, fun e he => ?_, fun e he => ?_, hfree.symm ▸ h.same,
      hfree.symm ▸ htiles, hfree.symm ▸ hproper⟩
    · have hbefore : e.1 < i.1 := by simpa using mem_takeWhile_imp he
      have := hmeet e ((takeWhile_sublist _).subset he)
      simp only
      omega
    · have hafter := le_of_mem_dropWhile h.apart e he
      have hsome := (hproper e (mem_cons_of_mem _ ((dropWhile_sublist _).subset he))).1
      have := hmeet e ((dropWhile_sublist _).subset he)
      simp only
      omega
  obtain ⟨hmerged, hleft, hright⟩ := hstart.mergeLeft.1.mergeRight hstart.mergeLeft.2
  unfold State.drop
  generalize (Returning.mk i s.fits _ _).mergeLeft.mergeRight = r at hmerged hleft hright
  obtain ⟨hinsert, hfits⟩ := insert_spec hmerged.same
    (fun a ha => Nat.lt_of_le_of_lt (Nat.le_add_right _ _) (hleft a ha))
    (fun b hb => Nat.lt_of_le_of_lt (Nat.le_add_right _ _) (hright b hb))
  dsimp only
  rw [hinsert]
  refine ⟨apart_insert hmerged.apart hleft hright, hfits, hmerged.tiles.perm middle_perm.symm,
    (forall_mem_cons.mp h.positive).2, fun _ e he => ?_, fun e he => ?_, ?_⟩
  · exact (hmerged.proper e (perm_middle.mem_iff.mp he)).1
  · rcases mem_append.mp he with he | he
    · exact (hmerged.proper e (perm_middle.mem_iff.mp he)).2
    · exact h.aligned e (mem_append_right _ (mem_cons_of_mem _ he))
  · have hused := h.used
    rw [map_cons, sum_cons] at hused
    exact Nat.sub_eq_of_eq_add' hused

/-! ### Runs -/

/-- A live block: the bytes that were asked for and its interval. -/
structure Block where
  asked : Nat
  interval : Nat × Nat
deriving DecidableEq, Repr

inductive Call where
  | allocate (bytes : Nat)
  | drop (block : Nat)
deriving DecidableEq, Repr

/-- An arena and its live blocks. -/
structure World where
  state : State
  live : List Block := []
deriving DecidableEq, Repr

/-- One call; the drop is of the live block at a place of the list. -/
def World.next (w : World) : Call → Option World
  | .allocate bytes =>
    match w.state.allocate bytes with
    | none => none
    | some (none, s) => some { w with state := s }
    | some (some i, s) => some { state := s, live := ⟨bytes, i⟩ :: w.live }
  | .drop block =>
    match w.live[block]? with
    | none => some w
    | some b => some { state := w.state.drop b.interval, live := w.live.eraseIdx block }

def World.Sound (bytes : Nat) (w : World) : Prop :=
  w.state.Sound bytes (w.live.map Block.interval) ∧ ∀ b ∈ w.live, b.asked ≤ b.interval.2

theorem World.Sound.next {w : World} (h : w.Sound bytes) (hbytes : bytes ≤ sizeMax) (c : Call) :
    ∃ w', w.next c = some w' ∧ w'.Sound bytes := by
  cases c with
  | allocate n =>
    unfold World.next
    dsimp only
    rcases h.1.allocate hbytes n with ⟨i, s', hcall, hs, hle, -⟩ | ⟨hcall, -⟩
    · rw [hcall]
      exact ⟨_, rfl, hs, forall_mem_cons.mpr ⟨hle, h.2⟩⟩
    · rw [hcall]
      exact ⟨_, rfl, h⟩
  | drop k =>
    unfold World.next
    dsimp only
    split
    · exact ⟨w, rfl, h⟩
    · rename_i b hb
      obtain ⟨hk, rfl⟩ := List.getElem?_eq_some_iff.mp hb
      exact ⟨_, rfl, (h.1.perm ((getElem_cons_eraseIdx_perm hk).symm.map _)).drop,
        fun b hb => h.2 b ((eraseIdx_sublist _ _).subset hb)⟩

theorem sound_run (hbytes : bytes ≤ sizeMax) {w : World} (h : w.Sound bytes) (calls : List Call) :
    ∃ w', Lib.run World.next w calls = some w' ∧ w'.Sound bytes := by
  induction calls generalizing w with
  | nil => exact ⟨w, rfl, h⟩
  | cons c calls ih =>
    obtain ⟨w', hnext, hw'⟩ := h.next hbytes c
    obtain ⟨w'', hrun, hw''⟩ := ih hw'
    exact ⟨w'', Lib.run_cons.mpr ⟨w', hnext, hrun⟩, hw''⟩

theorem sound_start (bytes : Nat) : World.Sound bytes { state := .new bytes } :=
  ⟨sound_new bytes, fun _ hb => absurd hb not_mem_nil⟩

/-- After any calls: no two live blocks meet, and each is inside the arena, as large as asked for
    and aligned; the two indexes have the same intervals, and between any two of them is a gap;
    blocks and free intervals cover the arena once; and an allocation fails only when no free
    interval is large enough, and then changes nothing. -/
theorem arena_run {bytes : Nat} (hbytes : bytes ≤ sizeMax) (calls : List Call) :
    ∃ w, Lib.run World.next { state := .new bytes } calls = some w ∧
      (w.live.Pairwise fun a b =>
        a.interval.1 + a.interval.2 ≤ b.interval.1 ∨ b.interval.1 + b.interval.2 ≤ a.interval.1) ∧
      (∀ b ∈ w.live, b.interval.1 + b.interval.2 ≤ bytes ∧ b.asked ≤ b.interval.2 ∧
        b.interval.1 % 16 = 0) ∧
      w.state.fits.Perm (w.state.free.map Prod.swap) ∧ w.state.free.Pairwise Gap ∧
      Tiles bytes (w.state.free ++ w.live.map Block.interval) ∧
      w.state.used = (w.live.map (·.interval.2)).sum ∧
      ∀ n, 0 < n → ((∃ s, w.state.allocate n = some (none, s)) ↔
          ∀ e ∈ w.state.free, e.2 < roundUp n) ∧
        ∀ s, w.state.allocate n = some (none, s) → s = w.state := by
  obtain ⟨w, hrun, hs, hasked⟩ := sound_run hbytes (sound_start bytes) calls
  have hinterval : ∀ b ∈ w.live, b.interval ∈ w.live.map Block.interval := fun b hb =>
    mem_map_of_mem hb
  refine ⟨w, hrun, ?_, fun b hb => ⟨?_, hasked b hb, ?_⟩, hs.same, hs.apart, hs.tiles, ?_,
    fun n hn => ⟨⟨fun ⟨s, hcall⟩ => ?_, fun hnone => ?_⟩, fun s hcall => ?_⟩⟩
  · have hlive := hs.tiles.disjoint.sublist (sublist_append_right _ _)
    exact (pairwise_map.mp hlive).imp_of_mem fun ha hb hmeet =>
      hmeet (hs.positive _ (hinterval _ ha)) (hs.positive _ (hinterval _ hb))
  · exact hs.tiles.inside (mem_append_right _ (hinterval b hb)) (hs.positive _ (hinterval b hb))
  · exact hs.aligned _ (mem_append_right _ (hinterval b hb))
  · rw [hs.used, map_map]
    rfl
  · rcases hs.allocate hbytes n with ⟨i, s', hsome, -⟩ | ⟨-, hfull⟩
    · rw [hsome] at hcall
      cases hcall
    · exact hfull hn
  · rcases hs.allocate hbytes n with ⟨i, s', -, -, -, e, he, hle⟩ | ⟨hcall, -⟩
    · exact absurd (hnone e he) (Nat.not_lt.mpr hle)
    · exact ⟨_, hcall⟩
  · rcases hs.allocate hbytes n with ⟨i, s', hsome, -⟩ | ⟨hnone, -⟩
    · rw [hsome] at hcall
      cases hcall
    · rw [hnone] at hcall
      cases hcall
      rfl

theorem arena_run_hundred :
    ∃ w, Lib.run World.next { state := .new 100 } [.allocate 20, .allocate 16, .drop 1] = some w ∧
      w.state.free = [(0, 32), (48, 52)] ∧ w.state.used = (w.live.map (·.interval.2)).sum := by
  obtain ⟨w, hrun, -, -, -, -, -, hused, -⟩ :=
    arena_run (show 100 ≤ sizeMax by decide) [.allocate 20, .allocate 16, .drop 1]
  have hfree : (Lib.run World.next { state := .new 100 }
      [.allocate 20, .allocate 16, .drop 1]).map (·.state.free) = some [(0, 32), (48, 52)] := by
    decide
  rw [hrun] at hfree
  exact ⟨w, hrun, Option.some.inj hfree, hused⟩

end TyloQuant.MoePinnedExpertArena
