import TyloQuant.Lib.BitWriter
import TyloQuant.Materialize.Stream

/-!
# Resuming a materialization

A call of `_stream_plan` writes exactly the asked range of the file that the plan stands for, in
whatever chunks it reads its sources: so calls that follow one another write the file.

The byte ranges are read back to back.  The bit ranges go through a carry of less than a byte, and
a call that starts in the middle of them starts at the beginning of a byte; `Lib.Written` says
which of the bits are out.
-/

namespace TyloQuant.Materialize

open Lib Bytes ByteFile Bits List

/-! ### The file of a plan -/

/-- The bits of some ranges, one after the other. -/
def rangesBits (bytes : List UInt8) (ranges : List (Nat × Nat)) : List Bool :=
  ranges.flatMap fun range => (List.range range.2).map fun i => bit (byte bytes) (range.1 + i)

/-- The bytes that a segment stands for. -/
def Segment.bytes (sources : Sources) : Segment → List UInt8
  | .literal data => data
  | .source name offset nbytes => readAt ((sources name).getD []) offset nbytes
  | .bitRanges name ranges _ => ofBools (rangesBits ((sources name).getD []) ranges)

/-- The file that a plan stands for. -/
def MaterializationPlan.bytes (sources : Sources) (plan : MaterializationPlan) : List UInt8 :=
  plan.segments.flatMap (Segment.bytes sources)

/-- The source of a segment is there and long enough, and the segment counts its bits. -/
def Segment.Inside (sources : Sources) : Segment → Prop
  | .literal _ => True
  | .source name offset nbytes =>
    ∃ bytes, sources name = some bytes ∧ offset + nbytes ≤ bytes.length
  | .bitRanges name ranges bitCount =>
    ∃ bytes, sources name = some bytes ∧ bitCount = (ranges.map Prod.snd).sum ∧
      ∀ range ∈ ranges, range.1 + range.2 ≤ 8 * bytes.length

/-- A plan as the planner makes it, with sources that are long enough. -/
structure MaterializationPlan.Inside (sources : Sources) (plan : MaterializationPlan) : Prop where
  totalBytes : plan.totalBytes = sumSegments plan.segments
  segments : ∀ segment ∈ plan.segments, segment.Inside sources

theorem length_rangesBits (bytes : List UInt8) (ranges : List (Nat × Nat)) :
    (rangesBits bytes ranges).length = (ranges.map Prod.snd).sum := by
  simp [rangesBits, length_flatMap]

theorem rangesBits_cons (bytes : List UInt8) (range : Nat × Nat) (ranges : List (Nat × Nat)) :
    rangesBits bytes (range :: ranges) = (List.range range.2).map
      (fun i => bit (byte bytes) (range.1 + i)) ++ rangesBits bytes ranges := flatMap_cons

variable {segment : Segment}

theorem Segment.length_bytes {sources : Sources} (h : segment.Inside sources) :
    (segment.bytes sources).length = segment.nbytes := by
  cases segment with
  | literal data => rfl
  | source source offset nbytes =>
    obtain ⟨bytes, hbytes, hle⟩ := h
    rw [Segment.bytes, hbytes, Option.getD_some, readAt, length_take, length_drop,
      Segment.nbytes]
    omega
  | bitRanges source ranges bitCount =>
    obtain ⟨bytes, hbytes, rfl, -⟩ := h
    rw [Segment.bytes, length_ofBools, length_rangesBits, Segment.nbytes]

/-! ### Bit ranges -/

/-- What has been written of some bits, and how much of it was counted. -/
def BitStream.Holds (st : BitStream) (bits : Nat → Bool) (n : Nat) : Prop :=
  Written bits st.output st.carry st.carryBits n ∧ st.written = st.output.length

variable {st : BitStream} {n takeBits : Nat}

theorem emit_spec {bits : Nat → Bool} {value : Nat} (h : st.Holds bits n)
    (hvalue : ∀ j, value.testBit j = (decide (j < takeBits) && bits (n + j))) :
    ∃ st', emit st value takeBits = .ok st' ∧ st'.Holds bits (n + takeBits) := by
  obtain ⟨hwritten, hcount⟩ := h
  have hpush := hwritten.push hvalue
  unfold emit
  dsimp only
  split
  · rename_i hzero
    rw [hzero] at hpush
    exact ⟨_, rfl, by simpa using hpush, hcount⟩
  · rw [toBytes, if_pos (hwritten.combined_lt hvalue)]
    refine ⟨_, rfl, hpush, ?_⟩
    change st.written + _ = _
    rw [length_append, length_take, length_littleEndian, hcount]
    omega

variable {readBit : Nat}

theorem testBit_read {bytes : List UInt8} (j : Nat) :
    (ofLittleEndian (readAt bytes (readBit / 8) ((readBit % 8 + takeBits + 7) / 8)) >>>
        (readBit % 8) &&& (1 <<< takeBits - 1)).testBit j
      = (decide (j < takeBits) && bit (byte bytes) (readBit + j)) := by
  rw [Nat.one_shiftLeft, Nat.testBit_and, Nat.testBit_two_pow_sub_one, Nat.testBit_shiftRight,
    testBit_ofLittleEndian, Bool.and_comm]
  by_cases hj : j < takeBits
  · have hbyte : (readBit % 8 + j) / 8 < (readBit % 8 + takeBits + 7) / 8 := by omega
    unfold bit readAt
    rw [byte_take, if_pos hbyte, byte_drop,
      show readBit / 8 + (readBit % 8 + j) / 8 = (readBit + j) / 8 by omega,
      show (readBit % 8 + j) % 8 = (readBit + j) % 8 by omega]
  · simp [hj]

theorem readBits_spec (source : String) {bytes : List UInt8} (chunkBytes : Nat)
    {bits : Nat → Bool} {remainingBits : Nat} (h : st.Holds bits n)
    (hinside : remainingBits = 0 ∨ readBit + remainingBits ≤ 8 * bytes.length)
    (hbits : ∀ j < remainingBits, bits (n + j) = bit (byte bytes) (readBit + j)) :
    ∃ st', readBits source bytes chunkBytes readBit remainingBits st = .ok st' ∧
      st'.Holds bits (n + remainingBits) := by
  -- The rounds take at least one bit each: by induction on what is left.
  induction remainingBits using Nat.strong_induction_on generalizing readBit n st with
  | _ remainingBits ih =>
    rw [readBits]
    by_cases hzero : remainingBits = 0
    · rw [if_pos hzero, hzero]
      exact ⟨st, rfl, h⟩
    · have hle := hinside.resolve_left hzero
      have hshift : readBit &&& 7 = readBit % 8 := Nat.and_two_pow_sub_one_eq_mod readBit 3
      have hmax : 1 ≤ maxSourceBytes chunkBytes := le_max_left _ _
      rw [if_neg hzero]
      dsimp only
      rw [hshift]
      generalize htake : min remainingBits (maxSourceBytes chunkBytes * 8 - readBit % 8) = takeBits
      have hpos : 0 < takeBits := by omega
      have htake_le : takeBits ≤ remainingBits := by omega
      have hlength : (readAt bytes (readBit / 8) ((readBit % 8 + takeBits + 7) / 8)).length
          = (readBit % 8 + takeBits + 7) / 8 := by
        rw [readAt, length_take, length_drop]
        omega
      have hvalue : ∀ j, (ofLittleEndian (readAt bytes (readBit / 8)
          ((readBit % 8 + takeBits + 7) / 8)) >>> (readBit % 8) &&& (1 <<< takeBits - 1)).testBit j
          = (decide (j < takeBits) && bits (n + j)) := by
        intro j
        rw [testBit_read]
        by_cases hj : j < takeBits
        · rw [hbits j (by omega)]
        · simp [hj]
      obtain ⟨st', hemit, hst'⟩ := emit_spec h hvalue
      rw [if_neg (not_not.mpr hlength), bind_of_ok hemit]
      have hnext : ∀ j < remainingBits - takeBits,
          bits (n + takeBits + j) = bit (byte bytes) (readBit + takeBits + j) := by
        intro j hj
        rw [Nat.add_assoc, hbits _ (by omega), Nat.add_assoc]
      obtain ⟨st'', hrest, hst''⟩ := ih (remainingBits - takeBits) (by omega) hst' (by omega) hnext
      refine ⟨st'', hrest, ?_⟩
      rwa [Nat.add_assoc, Nat.add_sub_cancel' htake_le] at hst''

variable {ranges : List (Nat × Nat)}

section StreamRanges

variable (source : String) {bytes : List UInt8} (chunkBytes : Nat) (bits : Nat → Bool)
  {startBit endBit : Nat}

/-- The loop over the ranges writes their bits from `startBit` to `endBit`. -/
theorem streamRanges_spec {logicalBit : Nat}
    (h : st.Holds (fun i => bits (startBit + i)) (min endBit logicalBit - startBit))
    (hinside : ∀ range ∈ ranges, range.1 + range.2 ≤ 8 * bytes.length)
    (hbits : ∀ j < (rangesBits bytes ranges).length,
      bits (logicalBit + j) = (rangesBits bytes ranges).getD j false) :
    ∃ st', streamRanges source bytes chunkBytes startBit endBit ranges logicalBit st = .ok st' ∧
      st'.Holds (fun i => bits (startBit + i))
        (min endBit (logicalBit + (rangesBits bytes ranges).length) - startBit) := by
  induction ranges generalizing logicalBit st with
  | nil => exact ⟨st, rfl, h⟩
  | cons range ranges ih =>
    obtain ⟨sourceBit, bitCount⟩ := range
    have hrange : sourceBit + bitCount ≤ 8 * bytes.length := hinside _ mem_cons_self
    have hlength : (rangesBits bytes ((sourceBit, bitCount) :: ranges)).length
        = bitCount + (rangesBits bytes ranges).length := by
      rw [rangesBits_cons, length_append, length_map, List.length_range]
    have hfirst : ∀ j < bitCount, bits (logicalBit + j) = bit (byte bytes) (sourceBit + j) := by
      intro j hj
      rw [hbits j (by omega), rangesBits_cons, getD_append _ _ _ _ (by simpa using hj),
        getD_eq_getElem _ _ (by simpa using hj), getElem_map, getElem_range]
    have hrest : ∀ j < (rangesBits bytes ranges).length,
        bits (logicalBit + bitCount + j) = (rangesBits bytes ranges).getD j false := by
      intro j hj
      rw [Nat.add_assoc, hbits _ (by omega), rangesBits_cons,
        getD_append_right _ _ _ _ (by simp)]
      simp
    have hinside' : ∀ range ∈ ranges, range.1 + range.2 ≤ 8 * bytes.length := fun range hmem =>
      hinside range (mem_cons_of_mem _ hmem)
    rw [streamRanges, hlength, ← Nat.add_assoc]
    dsimp only
    split
    · -- The range ends before the part that is asked for.
      refine ih ?_ hinside' hrest
      rwa [show min endBit (logicalBit + bitCount) - startBit = min endBit logicalBit - startBit
        by omega]
    · split
      · -- It begins behind it.
        refine ⟨st, rfl, ?_⟩
        rwa [show min endBit (logicalBit + bitCount + (rangesBits bytes ranges).length) - startBit
          = min endBit logicalBit - startBit by omega]
      · have hplace : min endBit logicalBit - startBit = max startBit logicalBit - startBit := by
          omega
        rw [hplace] at h
        have hpart : ∀ j < min endBit (logicalBit + bitCount) - max startBit logicalBit,
            bits (startBit + (max startBit logicalBit - startBit + j)) = bit (byte bytes)
              (sourceBit + (max startBit logicalBit - logicalBit) + j) := by
          intro j hj
          rw [show startBit + (max startBit logicalBit - startBit + j)
            = logicalBit + (max startBit logicalBit - logicalBit + j) by omega,
            hfirst _ (by omega), Nat.add_assoc]
        obtain ⟨st', hread, hst'⟩ := readBits_spec source chunkBytes h (by omega) hpart
        rw [bind_of_ok hread]
        refine ih ?_ hinside' hrest
        rwa [show max startBit logicalBit - startBit
            + (min endBit (logicalBit + bitCount) - max startBit logicalBit)
          = min endBit (logicalBit + bitCount) - startBit by omega] at hst'

end StreamRanges

theorem pad_flush_spec {bits : Nat → Bool} {requested : Nat} (h : st.Holds bits n)
    (hle : n ≤ 8 * requested) :
    (pad (flush st) requested).written = requested ∧
      (pad (flush st) requested).output.length = requested ∧
      ∀ i, bit (byte (pad (flush st) requested).output) i = (decide (i < n) && bits i) := by
  obtain ⟨hwritten, hcount⟩ := h
  have hn := hwritten.count
  have hlt := hwritten.carryBits_lt
  have hflush : (flush st).written = (flush st).output.length ∧
      (flush st).output.length = (n + 7) / 8 ∧
      ∀ i, bit (byte (flush st).output) i = (decide (i < n) && bits i) := by
    unfold flush
    split
    · rename_i hzero
      refine ⟨hcount, by omega, fun i => ?_⟩
      by_cases hi : i < n
      · rw [hwritten.bytes i (by omega), decide_eq_true hi, Bool.true_and]
      · rw [decide_eq_false hi, Bool.false_and]
        unfold bit
        rw [byte_of_le (by omega)]
        exact Nat.zero_testBit _
    · refine ⟨?_, ?_, hwritten.bit_flush⟩
      · change st.written + 1 = _
        rw [length_append, hcount]
        rfl
      · change (st.output ++ [_]).length = _
        rw [length_append, length_singleton]
        omega
  obtain ⟨hfcount, hflength, hfbits⟩ := hflush
  unfold pad
  split
  · refine ⟨rfl, ?_, fun i => ?_⟩
    · change ((flush st).output ++ List.replicate _ 0).length = _
      rw [length_append, length_replicate]
      omega
    · rw [← hfbits i]
      change bit (byte ((flush st).output ++ List.replicate _ 0)) i = _
      unfold bit
      rw [byte_append]
      split
      · rfl
      · rw [byte_zeros, byte_of_le (by omega)]
  · exact ⟨by omega, by omega, hfbits⟩

variable {relativeEnd relativeStart : Nat}

/-- **Any part of a bit-range segment** is written exactly. -/
theorem streamBitRanges_spec (source : String) {bitCount : Nat} {bytes : List UInt8}
    (hcount : bitCount = (ranges.map Prod.snd).sum)
    (hinside : ∀ range ∈ ranges, range.1 + range.2 ≤ 8 * bytes.length)
    (hstart : relativeStart < relativeEnd) (hend : relativeEnd ≤ (bitCount + 7) / 8)
    (chunkBytes : Nat) :
    streamBitRanges source ranges bitCount bytes relativeStart relativeEnd chunkBytes
      = .ok (((ofBools (rangesBits bytes ranges)).drop relativeStart).take
        (relativeEnd - relativeStart), relativeEnd - relativeStart) := by
  have hlength := length_rangesBits bytes ranges
  rw [← hcount] at hlength
  have hnil : BitStream.Holds {} (fun i => (rangesBits bytes ranges).getD (relativeStart * 8 + i)
      false) (min (min (relativeEnd * 8) bitCount) 0 - relativeStart * 8) := by
    rw [Nat.min_zero, Nat.zero_sub]
    exact ⟨written_nil _, rfl⟩
  have hall : ∀ j < (rangesBits bytes ranges).length,
      (fun i => (rangesBits bytes ranges).getD i false) (0 + j)
        = (rangesBits bytes ranges).getD j false := by
    intro j _
    rw [Nat.zero_add]
  obtain ⟨st, hranges, hst⟩ := streamRanges_spec source chunkBytes
    (fun i => (rangesBits bytes ranges).getD i false) hnil hinside hall
  rw [hlength, Nat.zero_add, min_assoc, min_self] at hst
  have hroom : min (relativeEnd * 8) bitCount - relativeStart * 8
      ≤ 8 * (relativeEnd - relativeStart) := by omega
  obtain ⟨hwritten, hsize, hbits⟩ := pad_flush_spec hst hroom
  have houtput : (pad (flush st) (relativeEnd - relativeStart)).output
      = ((ofBools (rangesBits bytes ranges)).drop relativeStart).take
        (relativeEnd - relativeStart) := by
    apply ByteFile.ext
    · rw [hsize, length_take, length_drop, length_ofBools]
      omega
    · intro k
      apply toNat_eq_of_bits
      intro j hj
      have hout := hbits (8 * k + j)
      unfold bit at hout
      rw [show (8 * k + j) / 8 = k by omega, show (8 * k + j) % 8 = j by omega] at hout
      rw [hout, byte_take, byte_drop]
      by_cases hk : k < relativeEnd - relativeStart
      · have hfile := bit_ofBools (rangesBits bytes ranges) (8 * (relativeStart + k) + j)
        unfold bit at hfile
        rw [show (8 * (relativeStart + k) + j) / 8 = relativeStart + k by omega,
          show (8 * (relativeStart + k) + j) % 8 = j by omega] at hfile
        rw [if_pos hk, hfile, show relativeStart * 8 + (8 * k + j) = 8 * (relativeStart + k) + j
          by omega]
        by_cases hin : 8 * (relativeStart + k) + j < bitCount
        · rw [decide_eq_true (by omega), Bool.true_and]
        · rw [decide_eq_false (by omega), Bool.false_and, getD_eq_default _ _ (by omega)]
      · rw [if_neg hk, decide_eq_false (by omega), Bool.false_and]
        exact (Nat.zero_testBit _).symm
  unfold streamBitRanges
  dsimp only
  rw [if_neg (by omega), bind_of_ok hranges, if_neg (not_not.mpr hwritten), houtput, hwritten]

/-! ### Byte ranges -/

theorem readAt_append (bytes : List UInt8) (position m n : Nat) :
    readAt bytes position m ++ readAt bytes (position + m) n = readAt bytes position (m + n) := by
  unfold readAt
  rw [take_add, drop_drop]

theorem copySource_spec (source : String) {bytes : List UInt8} {chunkBytes position remaining : Nat}
    (hchunk : 0 < chunkBytes) (hinside : position + remaining ≤ bytes.length)
    (output : List UInt8) : copySource source bytes chunkBytes position remaining output
      = .ok (output ++ readAt bytes position remaining) := by
  induction remaining using Nat.strong_induction_on generalizing position output with
  | _ remaining ih =>
    rw [copySource]
    by_cases hzero : remaining = 0
    · rw [if_pos hzero, hzero, readAt, take_zero, List.append_nil]
    · have hlength : (readAt bytes position (min chunkBytes remaining)).length
          = min chunkBytes remaining := by
        rw [readAt, length_take, length_drop]
        omega
      rw [if_neg hzero]
      dsimp only
      rw [hlength, if_neg (by omega), ih _ (by omega) (by omega), List.append_assoc, readAt_append,
        show min chunkBytes remaining + (remaining - min chunkBytes remaining) = remaining by omega]

/-! ### Plans -/

variable {start : Nat}

section Plan

variable {sources : Sources}

theorem streamSegment_spec (h : segment.Inside sources) {chunkBytes : Nat}
    (hchunk : 0 < chunkBytes) (hstart : relativeStart < relativeEnd)
    (hend : relativeEnd ≤ segment.nbytes) :
    streamSegment sources chunkBytes relativeStart relativeEnd segment
      = .ok (((segment.bytes sources).drop relativeStart).take (relativeEnd - relativeStart),
        relativeEnd - relativeStart) := by
  cases segment with
  | literal data => rfl
  | source source offset nbytes =>
    obtain ⟨bytes, hbytes, hle⟩ := h
    have hend' : relativeEnd ≤ nbytes := hend
    have hlookup : lookup sources source = .ok bytes := by
      rw [lookup, hbytes]
    rw [streamSegment, bind_of_ok hlookup,
      bind_of_ok (copySource_spec source hchunk (by omega) []), List.nil_append]
    have hpart : readAt bytes (offset + relativeStart) (relativeEnd - relativeStart)
        = ((Segment.bytes sources (.source source offset nbytes)).drop relativeStart).take
          (relativeEnd - relativeStart) := by
      rw [Segment.bytes, hbytes, Option.getD_some, readAt, readAt, drop_take,
        take_take, drop_drop, Nat.min_eq_left (by omega)]
    rw [← hpart]
    congr 2
    rw [readAt, length_take, length_drop]
    omega
  | bitRanges source ranges bitCount =>
    obtain ⟨bytes, hbytes, hcount, hinside⟩ := h
    have hlookup : lookup sources source = .ok bytes := by
      rw [lookup, hbytes]
    rw [streamSegment, bind_of_ok hlookup,
      streamBitRanges_spec source hcount hinside hstart hend, Segment.bytes, hbytes,
      Option.getD_some]

/-- The loop over the segments writes what lies between the two offsets. -/
theorem streamSegments_spec {segments : List Segment}
    (h : ∀ segment ∈ segments, segment.Inside sources) {chunkBytes : Nat} (hchunk : 0 < chunkBytes)
    (startOffset endOffset logicalOffset : Nat) (st : List UInt8 × Nat) :
    streamSegments sources chunkBytes startOffset endOffset segments logicalOffset st
      = .ok (st.1 ++ ((segments.flatMap (Segment.bytes sources)).drop
            (startOffset - logicalOffset)).take (endOffset - max startOffset logicalOffset),
          st.2 + (((segments.flatMap (Segment.bytes sources)).drop
            (startOffset - logicalOffset)).take
              (endOffset - max startOffset logicalOffset)).length) := by
  induction segments generalizing logicalOffset st with
  | nil => simp [streamSegments]
  | cons segment segments ih =>
    have hsegment := h segment mem_cons_self
    have hlength := Segment.length_bytes hsegment
    have hrest : ∀ segment ∈ segments, segment.Inside sources := fun segment hmem =>
      h segment (mem_cons_of_mem _ hmem)
    rw [streamSegments, flatMap_cons]
    dsimp only
    split
    · -- The segment lies before the range.
      have hbefore : (segment.bytes sources).drop (startOffset - logicalOffset) = [] :=
        drop_eq_nil_of_le (by omega)
      rw [ih hrest, drop_append, hbefore, List.nil_append, hlength,
        show startOffset - logicalOffset - segment.nbytes
          = startOffset - (logicalOffset + segment.nbytes) by omega,
        show max startOffset (logicalOffset + segment.nbytes) = max startOffset logicalOffset
          by omega]
    · split
      · -- It lies behind it.
        rw [show endOffset - max startOffset logicalOffset = 0 by omega, take_zero,
          List.append_nil]
        rfl
      · have hparts : (((segment.bytes sources) ++ segments.flatMap (Segment.bytes sources)).drop
              (startOffset - logicalOffset)).take (endOffset - max startOffset logicalOffset)
            = ((segment.bytes sources).drop (startOffset - logicalOffset)).take
                (min segment.nbytes (endOffset - logicalOffset) - (startOffset - logicalOffset))
              ++ ((segments.flatMap (Segment.bytes sources)).drop
                (startOffset - (logicalOffset + segment.nbytes))).take
                (endOffset - max startOffset (logicalOffset + segment.nbytes)) := by
          rw [drop_append, take_append, length_drop, hlength]
          congr 1
          · rw [take_eq_take_iff, length_drop, hlength]
            omega
          · rw [show startOffset - logicalOffset - segment.nbytes
                = startOffset - (logicalOffset + segment.nbytes) by omega,
              show endOffset - max startOffset logicalOffset
                  - (segment.nbytes - (startOffset - logicalOffset))
                = endOffset - max startOffset (logicalOffset + segment.nbytes) by omega]
        have hsize : (((segment.bytes sources).drop (startOffset - logicalOffset)).take
            (min segment.nbytes (endOffset - logicalOffset) - (startOffset - logicalOffset))).length
            = min segment.nbytes (endOffset - logicalOffset) - (startOffset - logicalOffset) := by
          rw [length_take, length_drop, hlength]
          omega
        split
        · rename_i hzero
          rw [ih hrest, hparts, hzero, take_zero, List.nil_append]
        · rw [bind_of_ok (streamSegment_spec hsegment hchunk (by omega) (Nat.min_le_left _ _)),
            ih hrest, hparts, List.append_assoc, length_append, hsize, Nat.add_assoc]

variable {plan : MaterializationPlan}

theorem MaterializationPlan.length_bytes (h : plan.Inside sources) :
    (plan.bytes sources).length = plan.totalBytes := by
  rw [h.totalBytes, MaterializationPlan.bytes, length_flatMap, sumSegments]
  congr 1
  exact map_congr_left fun segment hmem => Segment.length_bytes (h.segments segment hmem)

/-- **One call** writes the range it is asked for. -/
theorem streamPlan_spec (h : plan.Inside sources) (hle : start + n ≤ plan.totalBytes)
    {length : Option Int} (hlength : ∀ m, length = some m → m = n)
    (hnone : length = none → start + n = plan.totalBytes) {chunkBytes : Nat}
    (hchunk : 0 < chunkBytes) :
    streamPlan plan sources start length chunkBytes
      = .ok (((plan.bytes sources).drop start).take n, n) := by
  have htarget : targetBytes (plan.totalBytes - (start : Int).toNat) length = n := by
    cases length with
    | none =>
      have := hnone rfl
      rw [targetBytes, Int.toNat_natCast]
      omega
    | some m =>
      obtain rfl := hlength m rfl
      rw [targetBytes, Int.toNat_natCast, Int.toNat_natCast]
      omega
  have hsize : (((plan.bytes sources).drop start).take n).length = n := by
    rw [length_take, length_drop, MaterializationPlan.length_bytes h]
    omega
  unfold streamPlan
  rw [if_neg (by omega)]
  dsimp only
  rw [htarget, Int.toNat_natCast, streamSegments_spec h.segments hchunk]
  have hwritten : (([], 0) : List UInt8 × Nat).1 ++ ((plan.segments.flatMap
      (Segment.bytes sources)).drop (start - 0)).take (start + n - max start 0)
      = ((plan.bytes sources).drop start).take n := by
    rw [List.nil_append, Nat.sub_zero, Nat.max_zero, Nat.add_sub_cancel_left]
    rfl
  rw [List.nil_append] at hwritten
  rw [List.nil_append, hwritten, hsize, Nat.zero_add]
  change (if n ≠ n then _ else _) = _
  rw [if_neg (by simp)]

end Plan

/-! ### Runs -/

/-- A call of `_stream_plan`. -/
structure StreamCall where
  startOffset : Int
  length : Option Int
  chunkBytes : Nat

/-- Calls that go through the bytes from `start` to `total`, each beginning where the one before
    it ended; one without a length goes to the end. -/
inductive Split (total : Nat) : Nat → List StreamCall → Prop where
  | done : Split total total []
  | next {start n chunkBytes : Nat} {calls : List StreamCall} (hle : start + n ≤ total)
      (hchunk : 0 < chunkBytes) (rest : Split total (start + n) calls) :
      Split total start (⟨start, some n, chunkBytes⟩ :: calls)
  | toEnd {start chunkBytes : Nat} {calls : List StreamCall} (hle : start ≤ total)
      (hchunk : 0 < chunkBytes) (rest : Split total total calls) :
      Split total start (⟨start, none, chunkBytes⟩ :: calls)

/-- The calls of a run, which ends at the first that throws. -/
def streamCalls (plan : MaterializationPlan) (sources : Sources) (calls : List StreamCall) :
    Except StreamError (List (List UInt8 × Nat)) :=
  calls.mapM fun call => streamPlan plan sources call.startOffset call.length call.chunkBytes

theorem streamCalls_spec {plan : MaterializationPlan} {sources : Sources}
    (h : plan.Inside sources) {calls : List StreamCall}
    (hsplit : Split plan.totalBytes start calls) :
    ∃ outputs, streamCalls plan sources calls = .ok outputs ∧
      outputs.flatMap Prod.fst = (plan.bytes sources).drop start := by
  induction hsplit with
  | done =>
    refine ⟨[], rfl, ?_⟩
    rw [← MaterializationPlan.length_bytes h, drop_length]
    rfl
  | @next start n chunkBytes calls hle hchunk rest ih =>
    obtain ⟨outputs, hrest, houtputs⟩ := ih
    have hcall : streamPlan plan sources start (some n) chunkBytes
        = .ok (((plan.bytes sources).drop start).take n, n) :=
      streamPlan_spec h hle (fun m hm => (Option.some.inj hm).symm) (fun hnone => by cases hnone)
        hchunk
    refine ⟨(((plan.bytes sources).drop start).take n, n) :: outputs, ?_, ?_⟩
    · rw [streamCalls, mapM_cons, bind_of_ok hcall]
      exact bind_of_ok hrest _
    · rw [flatMap_cons, houtputs, ← drop_drop]
      exact take_append_drop n _
  | @toEnd start chunkBytes calls hle hchunk rest ih =>
    obtain ⟨outputs, hrest, houtputs⟩ := ih
    have hcall : streamPlan plan sources start none chunkBytes
        = .ok (((plan.bytes sources).drop start).take (plan.totalBytes - start),
          plan.totalBytes - start) :=
      streamPlan_spec h (by omega) (fun m hm => by cases hm) (fun _ => by omega) hchunk
    refine ⟨(((plan.bytes sources).drop start).take (plan.totalBytes - start),
      plan.totalBytes - start) :: outputs, ?_, ?_⟩
    · rw [streamCalls, mapM_cons, bind_of_ok hcall]
      exact bind_of_ok hrest _
    · have hlength := MaterializationPlan.length_bytes h
      have hend : (plan.bytes sources).drop plan.totalBytes = [] :=
        drop_eq_nil_of_le (by omega)
      rw [flatMap_cons, houtputs, hend, List.append_nil]
      exact take_of_length_le (by rw [length_drop]; omega)

/-- **Materialization can be resumed at any byte.** -/
theorem materialization_resumable {plan : MaterializationPlan} {sources : Sources}
    (h : plan.Inside sources) {calls : List StreamCall} (hsplit : Split plan.totalBytes 0 calls) :
    ∃ outputs, streamCalls plan sources calls = .ok outputs ∧
      outputs.flatMap Prod.fst = plan.bytes sources :=
  streamCalls_spec h hsplit

/-- A plan with a part of each kind. -/
def mixedPlan : MaterializationPlan where
  segments := [.literal [7, 9], .bitRanges "base" [(3, 4), (20, 0), (9, 7)] 11, .source "base" 1 2]
  totalBytes := 6

def baseOnly : Sources
  | "base" => some [0xb5, 0x0f, 0x21]
  | _ => none

/-- A run that stops in the middle of the packed bits. -/
theorem materialization_resumable_mixed :
    ∃ outputs, streamCalls mixedPlan baseOnly
        [⟨0, some 3, 1⟩, ⟨3, some 0, 5⟩, ⟨3, some 2, 2⟩, ⟨5, none, 1⟩] = .ok outputs ∧
      outputs.flatMap Prod.fst = [7, 9, 0x76, 0x00, 0x0f, 0x21] := by
  have hinside : mixedPlan.Inside baseOnly := by
    refine ⟨by decide, ?_⟩
    simp only [mixedPlan, Segment.Inside, baseOnly, forall_mem_cons]
    simp
  have hsplit : Split mixedPlan.totalBytes 0
      [⟨0, some 3, 1⟩, ⟨3, some 0, 5⟩, ⟨3, some 2, 2⟩, ⟨5, none, 1⟩] :=
    .next (by decide) (by decide) (.next (by decide) (by decide)
      (.next (by decide) (by decide) (.toEnd (by decide) (by decide) .done)))
  have hbytes : mixedPlan.bytes baseOnly = [7, 9, 0x76, 0x00, 0x0f, 0x21] := by decide
  rw [← hbytes]
  exact materialization_resumable hinside hsplit

end TyloQuant.Materialize
