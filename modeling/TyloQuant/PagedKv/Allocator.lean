import Mathlib.Data.List.GetD
import Mathlib.Data.List.Nodup
import Mathlib.Data.List.Perm.Basic

/-!
# The page allocator of the paged cache

`PagedKvPageAllocator` hands out physical pages: first those that came back, the last one first, and
then the pages above the watermark.  `release` checks the whole list before it takes any page back.

`World` is the allocator with the pages that its callers hold.  In every state that a sequence of
calls comes to, the pages below the watermark are those that are held and the free ones, each once.
-/

namespace TyloQuant.PagedKv

open List

/-- The allocator.  The back of the vector of free pages is the head of the list. -/
structure PagedKvPageAllocator where
  maximumPages : Nat
  highWatermark : Nat := 0
  livePages : Nat := 0
  peakLivePages : Nat := 0
  allocationCount : Nat := 0
  reuseCount : Nat := 0
  releaseCount : Nat := 0
  allocated : List Bool := []
  freePages : List Int := []
deriving DecidableEq, Repr

namespace PagedKvPageAllocator

/-- The constructor. -/
def new (maximumPages : Nat) : Except String PagedKvPageAllocator :=
  if maximumPages = 0 ∨ 2147483647 < maximumPages then
    .error "Paged KV physical page count must fit int32"
  else
    .ok { maximumPages }

/-- The first loop of `allocate`: `count` more pages, as long as there are free ones. -/
def reuse : Nat → PagedKvPageAllocator → List Int → PagedKvPageAllocator × List Int
  | 0, s, pages => (s, pages)
  | count + 1, s, pages =>
    match s.freePages with
    | [] => (s, pages)
    | page :: rest =>
      reuse count
        { s with
          freePages := rest
          allocated := s.allocated.set page.toNat true
          reuseCount := s.reuseCount + 1 }
        (pages ++ [page])

/-- The second loop of `allocate`: `count` pages above the watermark, or `none` when it throws. -/
def grow : Nat → PagedKvPageAllocator → List Int →
    Except (PagedKvPageAllocator × List Int) (PagedKvPageAllocator × List Int)
  | 0, s, pages => .ok (s, pages)
  | count + 1, s, pages =>
    if s.maximumPages ≤ s.highWatermark then
      .error (s, pages)
    else
      grow count
        { s with
          highWatermark := s.highWatermark + 1
          allocated := s.allocated ++ [true] }
        (pages ++ [(s.highWatermark : Int)])

/-- Taking one page back. -/
def putBack (s : PagedKvPageAllocator) (page : Int) : PagedKvPageAllocator :=
  { s with allocated := s.allocated.set page.toNat false, freePages := page :: s.freePages }

/-- `owns`. -/
def owns (s : PagedKvPageAllocator) (page : Int) : Bool :=
  0 ≤ page ∧ page.toNat < s.allocated.length ∧ s.allocated.getD page.toNat false

def releaseUnchecked (s : PagedKvPageAllocator) (pages : List Int) : PagedKvPageAllocator :=
  pages.foldl (fun s page =>
    if s.allocated.getD page.toNat false then s.putBack page else s) s

/-- `allocate`: what it returns or throws, and the state it leaves. -/
def allocate (s : PagedKvPageAllocator) (count : Nat) :
    Except String (List Int) × PagedKvPageAllocator :=
  if s.maximumPages - s.livePages < count then
    (.error "Paged KV physical page pool exhausted", s)
  else
    let (s, pages) := reuse count s []
    match grow (count - pages.length) s pages with
    | .error (s, pages) =>
      (.error "Paged KV physical page pool exhausted", s.releaseUnchecked pages)
    | .ok (s, pages) =>
      (.ok pages,
        { s with
          livePages := s.livePages + pages.length
          allocationCount := s.allocationCount + pages.length
          peakLivePages := max s.peakLivePages (s.livePages + pages.length) })

/-- The check of `release`, which has gone over the pages in `unique`. -/
def releasable (s : PagedKvPageAllocator) : List Int → List Int → Bool
  | _, [] => true
  | unique, page :: pages =>
    s.owns page && !unique.contains page && releasable s (page :: unique) pages

/-- `release`. -/
def release (s : PagedKvPageAllocator) (pages : List Int) :
    Except String Unit × PagedKvPageAllocator :=
  if s.releasable [] pages then
    let s := pages.foldl putBack s
    (.ok (), { s with
      livePages := s.livePages - pages.length
      releaseCount := s.releaseCount + pages.length })
  else
    (.error "Paged KV attempted to release an invalid physical page", s)

/-! ### Where the pages are -/

/-- The pages below the watermark are those in `held` and the free ones, each once, and the flags
    tell which. -/
structure Placed (s : PagedKvPageAllocator) (held : List Int) : Prop where
  flags : s.allocated.length = s.highWatermark
  bound : s.highWatermark ≤ s.maximumPages
  pages : (held ++ s.freePages).Perm ((List.range s.highWatermark).map Int.ofNat)
  marked : ∀ p ∈ held, s.allocated.getD p.toNat false = true
  free : ∀ p ∈ s.freePages, s.allocated.getD p.toNat false = false

variable {s : PagedKvPageAllocator} {held : List Int} {p : Int}

theorem Placed.mem_iff (h : s.Placed held) :
    p ∈ held ++ s.freePages ↔ 0 ≤ p ∧ p.toNat < s.highWatermark := by
  rw [h.pages.mem_iff, mem_map]
  constructor
  · rintro ⟨n, hn, rfl⟩
    exact ⟨Int.natCast_nonneg n, mem_range.mp hn⟩
  · rintro ⟨hpos, hlt⟩
    exact ⟨p.toNat, mem_range.mpr hlt, Int.toNat_of_nonneg hpos⟩

theorem Placed.nodup (h : s.Placed held) : (held ++ s.freePages).Nodup :=
  h.pages.nodup_iff.mpr (nodup_range.map fun _ _ hab => Int.ofNat.inj hab)

theorem Placed.owns_iff (h : s.Placed held) : s.owns p = true ↔ p ∈ held := by
  unfold owns
  rw [decide_eq_true_iff, h.flags]
  constructor
  · rintro ⟨hpos, hlt, hmarked⟩
    rcases mem_append.mp (h.mem_iff.mpr ⟨hpos, hlt⟩) with hmem | hmem
    · exact hmem
    · rw [h.free p hmem] at hmarked
      cases hmarked
  · intro hp
    obtain ⟨hpos, hlt⟩ := h.mem_iff.mp (mem_append_left _ hp)
    exact ⟨hpos, hlt, h.marked p hp⟩

theorem Placed.count (h : s.Placed held) : held.length + s.freePages.length = s.highWatermark := by
  have hlength := h.pages.length_eq
  rwa [length_append, length_map, List.length_range] at hlength

variable {flags : List Bool} {b : Bool}

theorem getD_set_of_ne {q : Int} (hp : 0 ≤ p) (hq : 0 ≤ q) (hne : p ≠ q) :
    (flags.set p.toNat b).getD q.toNat false = flags.getD q.toNat false := by
  rw [getD_eq_getElem?_getD, getElem?_set_ne (by omega), getD_eq_getElem?_getD]

theorem getD_set_self (hp : p.toNat < flags.length) :
    (flags.set p.toNat b).getD p.toNat false = b := by
  rw [getD_eq_getElem?_getD, getElem?_set_self hp, Option.getD_some]

variable {page : Int}

/-- One page goes from the free ones to those that are held. -/
theorem Placed.reuse_one (h : s.Placed held) {rest : List Int}
    (hfree : s.freePages = page :: rest) (reuseCount : Nat) :
    Placed { s with freePages := rest, allocated := s.allocated.set page.toNat true, reuseCount }
      (held ++ [page]) := by
  have hnodup := h.nodup
  have hbelow := fun p => h.mem_iff (p := p)
  rw [hfree] at hnodup hbelow
  obtain ⟨hpos, hlt⟩ := (hbelow page).mp (by simp)
  have hother : ∀ p ∈ held ++ rest, (s.allocated.set page.toNat true).getD p.toNat false =
      s.allocated.getD p.toNat false := fun p hp => by
    refine getD_set_of_ne hpos ((hbelow p).mp ?_).1 ?_
    · rcases mem_append.mp hp with hmem | hmem
      · exact mem_append_left _ hmem
      · exact mem_append_right _ (mem_cons_of_mem _ hmem)
    · rintro rfl
      exact (nodup_cons.mp (nodup_middle.mp hnodup)).1 hp
  refine ⟨by simpa using h.flags, h.bound, ?_, fun p hp => ?_, fun p hp => ?_⟩
  · have hpages := h.pages
    rw [hfree] at hpages
    simpa using hpages
  · rcases mem_append.mp hp with hmem | hmem
    · rw [hother p (mem_append_left _ hmem), h.marked p hmem]
    · rw [mem_singleton.mp hmem, getD_set_self (h.flags ▸ hlt)]
  · rw [hother p (mem_append_right _ hp), h.free p (hfree ▸ mem_cons_of_mem _ hp)]

/-- One page above the watermark goes to those that are held. -/
theorem Placed.grow_one (h : s.Placed held) (hroom : s.highWatermark < s.maximumPages) :
    Placed { s with highWatermark := s.highWatermark + 1, allocated := s.allocated ++ [true] }
      (held ++ [(s.highWatermark : Int)]) := by
  have hother : ∀ p ∈ held ++ s.freePages, (s.allocated ++ [true]).getD p.toNat false =
      s.allocated.getD p.toNat false := fun p hp => by
    rw [getD_append _ _ _ _ (h.flags ▸ (h.mem_iff.mp hp).2)]
  refine ⟨by simp [h.flags], hroom, ?_, fun p hp => ?_, fun p hp => ?_⟩
  · rw [range_succ, map_append, List.append_assoc]
    exact (perm_append_comm.append_left held).trans
      ((List.append_assoc _ _ _ ▸ h.pages.append_right _))
  · rcases mem_append.mp hp with hmem | hmem
    · rw [hother p (mem_append_left _ hmem), h.marked p hmem]
    · obtain rfl := mem_singleton.mp hmem
      simp [← h.flags]
  · rw [hother p (mem_append_right _ hp), h.free p hp]

theorem Placed.putBack (h : s.Placed held) (hpage : page ∈ held) :
    Placed (s.putBack page) (held.erase page) := by
  obtain ⟨hpos, hlt⟩ := h.mem_iff.mp (mem_append_left _ hpage)
  have hperm : (held.erase page ++ page :: s.freePages).Perm (held ++ s.freePages) :=
    perm_middle.trans ((perm_cons_erase hpage).symm.append_right _)
  have hnodup := nodup_middle.mp (hperm.nodup_iff.mpr h.nodup)
  have hother : ∀ p ∈ held.erase page ++ s.freePages,
      (s.allocated.set page.toNat false).getD p.toNat false =
        s.allocated.getD p.toNat false := fun p hp => by
    refine getD_set_of_ne hpos (h.mem_iff.mp ?_).1 ?_
    · rcases mem_append.mp hp with hmem | hmem
      · exact mem_append_left _ (mem_of_mem_erase hmem)
      · exact mem_append_right _ hmem
    · rintro rfl
      exact (nodup_cons.mp hnodup).1 hp
  refine ⟨by simpa [PagedKvPageAllocator.putBack] using h.flags, h.bound, hperm.trans h.pages,
    fun p hp => ?_, fun p hp => ?_⟩
  · exact (hother p (mem_append_left _ hp)).trans (h.marked p (mem_of_mem_erase hp))
  · rcases mem_cons.mp hp with rfl | hmem
    · exact getD_set_self (h.flags ▸ hlt)
    · exact (hother p (mem_append_right _ hmem)).trans (h.free p hmem)

/-! ### The loops -/

/-- The fields that the loops leave alone. -/
structure Counted (s s' : PagedKvPageAllocator) : Prop where
  maximum : s'.maximumPages = s.maximumPages
  live : s'.livePages = s.livePages

variable {pages : List Int}

theorem reuse_spec (count : Nat) (h : s.Placed (held ++ pages)) :
    (reuse count s pages).1.Placed (held ++ (reuse count s pages).2) ∧
      Counted s (reuse count s pages).1 ∧
      (reuse count s pages).1.highWatermark = s.highWatermark ∧
      (reuse count s pages).2.length = pages.length + min count s.freePages.length := by
  induction count generalizing s pages with
  | zero => exact ⟨h, ⟨rfl, rfl⟩, rfl, by simp [reuse]⟩
  | succ count ih =>
    unfold reuse
    split
    · rename_i hfree
      exact ⟨h, ⟨rfl, rfl⟩, rfl, by simp [hfree]⟩
    · rename_i page rest hfree
      have hone := h.reuse_one hfree (s.reuseCount + 1)
      rw [List.append_assoc] at hone
      obtain ⟨hplaced, hcounted, hwatermark, hlength⟩ := ih hone
      refine ⟨hplaced, ⟨hcounted.maximum, hcounted.live⟩, hwatermark, hlength.trans ?_⟩
      rw [length_append, length_singleton, hfree, length_cons]
      dsimp only
      omega

theorem grow_spec (count : Nat) (h : s.Placed (held ++ pages))
    (hroom : count ≤ s.maximumPages - s.highWatermark) :
    ∃ s' pages', grow count s pages = .ok (s', pages') ∧ s'.Placed (held ++ pages') ∧
      Counted s s' ∧ pages'.length = pages.length + count := by
  induction count generalizing s pages with
  | zero => exact ⟨s, pages, rfl, h, ⟨rfl, rfl⟩, rfl⟩
  | succ count ih =>
    have hone := h.grow_one (by omega)
    rw [List.append_assoc] at hone
    obtain ⟨s', pages', hgrow, hplaced, hcounted, hlength⟩ := ih hone (by
      dsimp only
      omega)
    refine ⟨s', pages', ?_, hplaced, ⟨hcounted.maximum, hcounted.live⟩, ?_⟩
    · rw [grow, if_neg (by omega), hgrow]
    · rw [hlength, length_append, length_singleton]
      omega

/-- The check of `release` asks for pages that are held, each once. -/
theorem releasable_iff (h : s.Placed held) (unique pages : List Int) :
    s.releasable unique pages = true ↔
      pages.Nodup ∧ ∀ p ∈ pages, p ∈ held ∧ p ∉ unique := by
  induction pages generalizing unique with
  | nil => simp [releasable]
  | cons page pages ih =>
    rw [releasable, Bool.and_eq_true, Bool.and_eq_true, h.owns_iff, ih, nodup_cons]
    simp only [mem_cons, Bool.not_eq_true', contains_eq_mem, decide_eq_false_iff_not,
      not_or, forall_eq_or_imp]
    constructor
    · rintro ⟨⟨hpage, hfresh⟩, hnodup, hrest⟩
      exact ⟨⟨fun hmem => (hrest page hmem).2.1 rfl, hnodup⟩, ⟨hpage, hfresh⟩,
        fun p hp => ⟨(hrest p hp).1, (hrest p hp).2.2⟩⟩
    · rintro ⟨⟨hnot, hnodup⟩, hpage, hrest⟩
      refine ⟨hpage, hnodup, fun p hp => ⟨(hrest p hp).1, ?_, (hrest p hp).2⟩⟩
      rintro rfl
      exact hnot hp

theorem foldl_putBack (h : s.Placed held) (hnodup : pages.Nodup) (hheld : ∀ p ∈ pages, p ∈ held) :
    (pages.foldl putBack s).Placed (held.diff pages) ∧ Counted s (pages.foldl putBack s) ∧
      (held.diff pages).length = held.length - pages.length := by
  induction pages generalizing s held with
  | nil => exact ⟨h, ⟨rfl, rfl⟩, rfl⟩
  | cons page pages ih =>
    rw [nodup_cons] at hnodup
    have hone := h.putBack (hheld page mem_cons_self)
    obtain ⟨hplaced, hcounted, hlength⟩ := ih hone hnodup.2 fun p hp =>
      (mem_erase_of_ne (by rintro rfl; exact hnodup.1 hp)).mpr
        (hheld p (mem_cons_of_mem _ hp))
    rw [diff_cons]
    refine ⟨hplaced, ⟨hcounted.maximum, hcounted.live⟩, hlength.trans ?_⟩
    rw [length_erase_of_mem (hheld page mem_cons_self), length_cons]
    omega

/-! ### Calls -/

/-- The state of the allocator while its callers hold these pages. -/
structure Sound (maximumPages : Nat) (s : PagedKvPageAllocator) (held : List Int) : Prop where
  placed : s.Placed held
  maximum : s.maximumPages = maximumPages
  live : s.livePages = held.length

variable {maximumPages : Nat}

/-- `allocate` hands out as many pages as it is asked for, or changes nothing. -/
theorem Sound.allocate (h : s.Sound maximumPages held) (count : Nat) :
    (count ≤ maximumPages - s.livePages ∧ ∃ pages s', s.allocate count = (.ok pages, s') ∧
      pages.length = count ∧ s'.Sound maximumPages (held ++ pages)) ∨
    (maximumPages - s.livePages < count ∧
      s.allocate count = (.error "Paged KV physical page pool exhausted", s)) := by
  unfold PagedKvPageAllocator.allocate
  rw [h.maximum]
  split
  · rename_i hmore
    exact .inr ⟨hmore, rfl⟩
  · rename_i hfits
    have hplaced := h.placed
    rw [← List.append_nil held] at hplaced
    obtain ⟨hreused, hcounted, hwatermark, hlength⟩ := reuse_spec count hplaced
    have hcount := h.placed.count
    have hlive := h.live
    rw [length_nil, Nat.zero_add] at hlength
    generalize reuse count s [] = r at *
    obtain ⟨s₁, pages₁⟩ := r
    have hmaximum := hcounted.maximum.trans h.maximum
    dsimp only at *
    obtain ⟨s₂, pages₂, hgrow, hgrown, hcounted₂, hlength₂⟩ :=
      grow_spec (count - pages₁.length) hreused (by omega)
    rw [hgrow]
    refine .inl ⟨by omega, pages₂, _, rfl, by omega, ⟨⟨hgrown.flags, hgrown.bound, hgrown.pages,
      hgrown.marked, hgrown.free⟩, hcounted₂.maximum.trans hmaximum, ?_⟩⟩
    rw [length_append, ← hlive, ← hcounted.live, ← hcounted₂.live]

/-- `release` takes the pages back that are held, or changes nothing. -/
theorem Sound.release (h : s.Sound maximumPages held) (pages : List Int) :
    ((pages.Nodup ∧ ∀ p ∈ pages, p ∈ held) ∧ ∃ s', s.release pages = (.ok (), s') ∧
      s'.Sound maximumPages (held.diff pages)) ∨
    (¬(pages.Nodup ∧ ∀ p ∈ pages, p ∈ held) ∧ s.release pages =
      (.error "Paged KV attempted to release an invalid physical page", s)) := by
  have hcheck := releasable_iff h.placed [] pages
  simp only [not_mem_nil, not_false_eq_true, and_true] at hcheck
  unfold PagedKvPageAllocator.release
  split
  · rename_i hvalid
    have hpages := hcheck.mp hvalid
    obtain ⟨hplaced, hcounted, hlength⟩ := foldl_putBack h.placed hpages.1 hpages.2
    refine .inl ⟨hpages, _, rfl, ⟨⟨hplaced.flags, hplaced.bound, hplaced.pages, hplaced.marked,
      hplaced.free⟩, hcounted.maximum.trans h.maximum, ?_⟩⟩
    dsimp only
    rw [hcounted.live, h.live, hlength]
  · rename_i hinvalid
    exact .inr ⟨mt hcheck.mpr hinvalid, rfl⟩

end PagedKvPageAllocator

/-- A call of the allocator. -/
inductive Call where
  | allocate (count : Nat)
  | release (pages : List Int)

/-- The allocator, and the pages that its callers hold. -/
structure World where
  allocator : PagedKvPageAllocator
  held : List Int := []

/-- One call.  Who gets pages holds them until someone gives them back. -/
def World.next (w : World) : Call → World
  | .allocate count =>
    match w.allocator.allocate count with
    | (.ok pages, s) => ⟨s, w.held ++ pages⟩
    | (.error _, s) => ⟨s, w.held⟩
  | .release pages =>
    match w.allocator.release pages with
    | (.ok (), s) => ⟨s, w.held.diff pages⟩
    | (.error _, s) => ⟨s, w.held⟩

theorem PagedKvPageAllocator.Sound.next {maximumPages : Nat} {w : World}
    (h : w.allocator.Sound maximumPages w.held) (call : Call) :
    (w.next call).allocator.Sound maximumPages (w.next call).held := by
  cases call with
  | allocate count =>
    rcases h.allocate count with ⟨-, pages, s', hcall, -, hsound⟩ | ⟨-, hcall⟩
    · rw [World.next, hcall]
      exact hsound
    · rw [World.next, hcall]
      exact h
  | release pages =>
    rcases h.release pages with ⟨-, s', hcall, hsound⟩ | ⟨-, hcall⟩
    · rw [World.next, hcall]
      exact hsound
    · rw [World.next, hcall]
      exact h

/-- Every sequence of calls leaves the allocator sound. -/
theorem sound_run {maximumPages : Nat} {s : PagedKvPageAllocator}
    (hnew : PagedKvPageAllocator.new maximumPages = .ok s) (calls : List Call) :
    let w := calls.foldl World.next { allocator := s }
    w.allocator.Sound maximumPages w.held := by
  have hstart : s.Sound maximumPages [] := by
    unfold PagedKvPageAllocator.new at hnew
    split at hnew
    · cases hnew
    · cases hnew
      exact ⟨⟨rfl, Nat.zero_le _, List.Perm.refl _, fun _ h => absurd h not_mem_nil,
        fun _ h => absurd h not_mem_nil⟩, rfl, rfl⟩
  have hrun : ∀ (calls : List Call) (w : World), w.allocator.Sound maximumPages w.held →
      (calls.foldl World.next w).allocator.Sound maximumPages (calls.foldl World.next w).held := by
    intro calls
    induction calls with
    | nil => exact fun w h => h
    | cons call calls ih => exact fun w h => ih _ (h.next call)
  exact hrun calls _ hstart

/-- **The pages that are held are distinct and within the pool**, the free ones are the rest below
    the watermark, `allocate` succeeds exactly while enough pages are left, and a call that throws
    changes nothing. -/
theorem allocator_accounting {maximumPages : Nat} {s : PagedKvPageAllocator}
    (hnew : PagedKvPageAllocator.new maximumPages = .ok s) (calls : List Call) :
    let w := calls.foldl World.next { allocator := s }
    (w.held.Nodup ∧ ∀ p ∈ w.held, 0 ≤ p ∧ p < maximumPages) ∧
      w.allocator.livePages = w.held.length ∧
      w.allocator.livePages + w.allocator.freePages.length = w.allocator.highWatermark ∧
      (∀ count, (∃ pages, (w.allocator.allocate count).1 = .ok pages) ↔
        count ≤ maximumPages - w.allocator.livePages) ∧
      (∀ count pages, (w.allocator.allocate count).1 = .ok pages → pages.length = count) ∧
      (∀ pages, (w.allocator.release pages).1 = .ok () ↔ pages.Nodup ∧ ∀ p ∈ pages, p ∈ w.held) ∧
      (∀ count e, (w.allocator.allocate count).1 = .error e →
        (w.allocator.allocate count).2 = w.allocator) ∧
      ∀ pages e, (w.allocator.release pages).1 = .error e →
        (w.allocator.release pages).2 = w.allocator := by
  intro w
  have h : w.allocator.Sound maximumPages w.held := sound_run hnew calls
  have hbound := h.placed.bound
  rw [h.maximum] at hbound
  refine ⟨⟨(nodup_append.mp h.placed.nodup).1, fun p hp => ?_⟩, h.live,
    h.live ▸ h.placed.count, fun count => ?_, fun count pages hpages => ?_, fun pages => ?_,
    fun count e herror => ?_, fun pages e herror => ?_⟩
  · obtain ⟨hpos, hlt⟩ := h.placed.mem_iff.mp (mem_append_left _ hp)
    exact ⟨hpos, by omega⟩
  · rcases h.allocate count with ⟨hfits, pages, s', hcall, -⟩ | ⟨hmore, hcall⟩
    · exact ⟨fun _ => hfits, fun _ => ⟨pages, by rw [hcall]⟩⟩
    · rw [hcall]
      exact ⟨fun ⟨_, h⟩ => (by cases h), fun hfits => absurd hfits (Nat.not_le.mpr hmore)⟩
  · rcases h.allocate count with ⟨-, pages', s', hcall, hlength, -⟩ | ⟨-, hcall⟩
    · rw [hcall] at hpages
      cases hpages
      exact hlength
    · rw [hcall] at hpages
      cases hpages
  · rcases h.release pages with ⟨hpages, s', hcall, -⟩ | ⟨hpages, hcall⟩
    · rw [hcall]
      exact ⟨fun _ => hpages, fun _ => rfl⟩
    · rw [hcall]
      exact ⟨fun h => (by cases h), fun h => absurd h hpages⟩
  · rcases h.allocate count with ⟨-, pages, s', hcall, -⟩ | ⟨-, hcall⟩
    · rw [hcall] at herror
      cases herror
    · rw [hcall]
  · rcases h.release pages with ⟨-, s', hcall, -⟩ | ⟨-, hcall⟩
    · rw [hcall] at herror
      cases herror
    · rw [hcall]

/-- Three of eight pages are taken, one comes back and is handed out again. -/
theorem allocator_accounting_eight :
    let w := [Call.allocate 3, .release [1], .release [1], .allocate 2].foldl World.next
      { allocator := { maximumPages := 8 } }
    w.held = [0, 2, 1, 3] ∧ w.allocator.livePages + w.allocator.freePages.length =
      w.allocator.highWatermark :=
  ⟨by decide, (@allocator_accounting 8 _ rfl _).2.2.1⟩

end TyloQuant.PagedKv
