import TyloQuant.Lib.Bytes
import TyloQuant.PrefixCache.State

/-!
# The block file

`write_file` puts a header of 156 bytes in front of a payload, and `read_payload` takes the
payload out again after it has checked the header against the cache, the hash that it looks for,
the length of the file and the checksum.  A stream that has failed stays failed, so reading is a
chain of readers of which each may fail.  SHA-256 is a parameter.
-/

namespace TyloQuant.PrefixCache

open Lib.Bytes List

/-! ### The format -/

/-- `BlockHash`. -/
structure BlockHash where
  bytes : List UInt8
  size : bytes.length = 32
deriving DecidableEq

/-- What the reader and the writer know of their cache; the constructor checks the block size. -/
structure BlockFormat where
  compatibilityHash : BlockHash
  blockSizeTokens : Nat
  positive : 0 < blockSizeTokens
  bounded : blockSizeTokens < 2 ^ 32
  sha256 : Payload → BlockHash

structure ParsedHeader where
  compatibility : BlockHash
  hash : BlockHash
  parent : BlockHash
  blockSize : Nat
  tokenCount : Nat
  payloadBytes : Nat
  payloadHash : BlockHash
deriving DecidableEq

/-- `MFQKVB1` and a zero byte. -/
def kMagic : List UInt8 := [0x4D, 0x46, 0x51, 0x4B, 0x56, 0x42, 0x31, 0]

def kFormatVersion : Nat := 1

/-- The largest `std::streamsize`; no file is longer. -/
def streamMax : Nat := 2 ^ 63 - 1

/-! ### Writing -/

/-- The header that `write_file` writes. -/
def BlockFormat.header (f : BlockFormat) (r : WriteRequest BlockHash) : List UInt8 :=
  kMagic ++ (littleEndian 4 kFormatVersion ++ (f.compatibilityHash.bytes ++ (r.hash.bytes ++
    (r.parent.bytes ++ (littleEndian 4 f.blockSizeTokens ++ (littleEndian 4 r.tokenCount ++
      (littleEndian 8 r.payload.length ++ (f.sha256 r.payload).bytes)))))))

/-- The bytes that `write_file` produces; a write past the end of the longest file fails. -/
def BlockFormat.writeFile (f : BlockFormat) (r : WriteRequest BlockHash) : Option (List UInt8) :=
  let bytes := f.header r ++ r.payload
  if bytes.length ≤ streamMax then some bytes else none

/-! ### Reading -/

def readHash (s : List UInt8) : Option (BlockHash × List UInt8) :=
  if h : 32 ≤ s.length then some (⟨s.take 32, length_take_of_le h⟩, s.drop 32) else none

def BlockFormat.readHeader (f : BlockFormat) (s : List UInt8) :
    Option (ParsedHeader × List UInt8) := do
  let (magic, s) ← readBytes 8 s
  let (version, s) ← readLittleEndian 4 s
  if magic ≠ kMagic ∨ version ≠ kFormatVersion then none
  let (compatibility, s) ← readHash s
  let (hash, s) ← readHash s
  let (parent, s) ← readHash s
  let (blockSize, s) ← readLittleEndian 4 s
  let (tokenCount, s) ← readLittleEndian 4 s
  let (payloadBytes, s) ← readLittleEndian 8 s
  let (payloadHash, s) ← readHash s
  if compatibility = f.compatibilityHash ∧ blockSize = f.blockSizeTokens ∧ 0 < tokenCount ∧
      tokenCount ≤ blockSize ∧ payloadBytes ≤ streamMax then
    some ({ compatibility, hash, parent, blockSize, tokenCount, payloadBytes, payloadHash }, s)
  else none

/-- `tellg` at the end of a file; it fails where the position has no `streamoff`. -/
def fileEnd (s : List UInt8) : Int := if s.length ≤ streamMax then s.length else -1

def BlockFormat.readPayload (f : BlockFormat) (s : List UInt8) (expectedHash : BlockHash) :
    Option Payload := do
  let (header, rest) ← f.readHeader s
  if header.hash ≠ expectedHash then none
  let payloadStart := s.length - rest.length
  if payloadStart ≠ kHeaderBytes ∨ fileEnd s < 0 ∨ u64Max - kHeaderBytes < header.payloadBytes ∨
      fileEnd s ≠ ((kHeaderBytes + header.payloadBytes) % 2 ^ 64 : Nat) then none
  let (payload, _) ← readBytes header.payloadBytes rest
  if f.sha256 payload ≠ header.payloadHash then none
  some payload

/-! ### What the readers accept -/

variable {s : List UInt8} {rest : List UInt8} {h : BlockHash}

theorem readHash_iff : readHash s = some (h, rest) ↔ s = h.bytes ++ rest := by
  unfold readHash
  constructor
  · intro heq
    split at heq
    · obtain ⟨rfl, rfl⟩ := Prod.mk.inj (Option.some.inj heq)
      exact (take_append_drop 32 s).symm
    · cases heq
  · rintro rfl
    have hlen := h.size
    rw [dif_pos (by rw [length_append]; omega)]
    obtain ⟨bytes, hsize⟩ := h
    simp only [take_left' hsize, drop_left' hsize]

/-- The bytes of a parsed header. -/
def ParsedHeader.bytes (h : ParsedHeader) : List UInt8 :=
  kMagic ++ (littleEndian 4 kFormatVersion ++ (h.compatibility.bytes ++ (h.hash.bytes ++
    (h.parent.bytes ++ (littleEndian 4 h.blockSize ++ (littleEndian 4 h.tokenCount ++
      (littleEndian 8 h.payloadBytes ++ h.payloadHash.bytes)))))))

theorem ParsedHeader.length_bytes (h : ParsedHeader) : h.bytes.length = kHeaderBytes := by
  simp only [ParsedHeader.bytes, length_append, length_littleEndian, h.compatibility.size,
    h.hash.size, h.parent.size, h.payloadHash.size]
  rfl

/-- What `read_header` checks. -/
structure ParsedHeader.Valid (f : BlockFormat) (h : ParsedHeader) : Prop where
  compatibility : h.compatibility = f.compatibilityHash
  blockSize : h.blockSize = f.blockSizeTokens
  positive : 0 < h.tokenCount
  bounded : h.tokenCount ≤ h.blockSize
  payloadBytes : h.payloadBytes ≤ streamMax

variable {f : BlockFormat}

theorem readHeader_iff {h : ParsedHeader} :
    f.readHeader s = some (h, rest) ↔ h.Valid f ∧ s = h.bytes ++ rest := by
  have hblock := f.bounded
  constructor
  · intro heq
    simp only [BlockFormat.readHeader, Option.bind_eq_bind, Option.bind_eq_some_iff,
      Prod.exists] at heq
    obtain ⟨magic, s₁, hmagic, version, s₂, hversion, heq⟩ := heq
    split at heq
    · cases heq
    · rename_i hmatch
      obtain ⟨rfl, rfl⟩ : magic = kMagic ∧ version = kFormatVersion := by
        simpa only [not_or, ne_eq, not_not] using hmatch
      simp only [Option.bind_eq_some_iff, Prod.exists] at heq
      obtain ⟨compatibility, s₃, hcompatibility, hash, s₄, hhash, parent, s₅, hparent, blockSize, s₆,
        hsize, tokenCount, s₇, hcount, payloadBytes, s₈, hbytes, payloadHash, s₉, hsum, heq⟩ := heq
      split at heq
      · rename_i hvalid
        obtain ⟨rfl, rfl⟩ := Prod.mk.inj (Option.some.inj heq)
        obtain ⟨hv₁, hv₂, hv₃, hv₄, hv₅⟩ := hvalid
        refine ⟨⟨hv₁, hv₂, hv₃, hv₄, hv₅⟩, ?_⟩
        rw [(readBytes_iff.mp hmagic).2, (readLittleEndian_iff.mp hversion).2,
          readHash_iff.mp hcompatibility, readHash_iff.mp hhash, readHash_iff.mp hparent,
          (readLittleEndian_iff.mp hsize).2, (readLittleEndian_iff.mp hcount).2,
          (readLittleEndian_iff.mp hbytes).2, readHash_iff.mp hsum]
        simp only [ParsedHeader.bytes, List.append_assoc]
      · cases heq
  · rintro ⟨⟨hv₁, hv₂, hv₃, hv₄, hv₅⟩, rfl⟩
    obtain ⟨compatibility, hash, parent, blockSize, tokenCount, payloadBytes, payloadHash⟩ := h
    dsimp only at hv₁ hv₂ hv₃ hv₄ hv₅
    have hbig : streamMax < 256 ^ 8 := by decide
    have hlt : payloadBytes < 256 ^ 8 := hv₅.trans_lt hbig
    have hmagic : ∀ more, readBytes 8 (kMagic ++ more) = some (kMagic, more) :=
      fun more => readBytes_iff.mpr ⟨by decide, rfl⟩
    simp only [BlockFormat.readHeader, ParsedHeader.bytes, List.append_assoc]
    rw [hmagic]
    simp only [Option.bind_eq_bind, Option.bind_some]
    rw [readLittleEndian_iff.mpr ⟨by decide, rfl⟩]
    simp only [Option.bind_some, ne_eq, not_true_eq_false, or_self, if_false]
    rw [readHash_iff.mpr rfl]
    simp only [Option.bind_some]
    rw [readHash_iff.mpr rfl]
    simp only [Option.bind_some]
    rw [readHash_iff.mpr rfl]
    simp only [Option.bind_some]
    rw [readLittleEndian_iff.mpr ⟨by omega, rfl⟩]
    simp only [Option.bind_some]
    rw [readLittleEndian_iff.mpr ⟨by omega, rfl⟩]
    simp only [Option.bind_some]
    rw [readLittleEndian_iff.mpr ⟨hlt, rfl⟩]
    simp only [Option.bind_some]
    rw [readHash_iff.mpr rfl]
    simp only [Option.bind_some]
    rw [if_pos ⟨hv₁, hv₂, hv₃, hv₄, hv₅⟩]

/-! ### Reading back -/

/-- The header of a request, as it is parsed. -/
def BlockFormat.parsed (f : BlockFormat) (r : WriteRequest BlockHash) : ParsedHeader where
  compatibility := f.compatibilityHash
  hash := r.hash
  parent := r.parent
  blockSize := f.blockSizeTokens
  tokenCount := r.tokenCount
  payloadBytes := r.payload.length
  payloadHash := f.sha256 r.payload

theorem BlockFormat.header_eq (f : BlockFormat) (r : WriteRequest BlockHash) :
    f.header r = (f.parsed r).bytes := rfl

theorem BlockFormat.length_header (f : BlockFormat) (r : WriteRequest BlockHash) :
    (f.header r).length = kHeaderBytes := (f.parsed r).length_bytes

variable {r : WriteRequest BlockHash}

theorem writeFile_iff :
    f.writeFile r = some s ↔ s = f.header r ++ r.payload ∧ s.length ≤ streamMax := by
  unfold BlockFormat.writeFile
  dsimp only
  constructor
  · intro h
    split at h
    · obtain rfl := Option.some.inj h
      exact ⟨rfl, ‹_›⟩
    · cases h
  · rintro ⟨rfl, hle⟩
    exact if_pos hle

/-- A request whose token count `read_header` accepts. -/
def BlockFormat.Counts (f : BlockFormat) (tokenCount : Nat) : Prop :=
  0 < tokenCount ∧ tokenCount ≤ f.blockSizeTokens

theorem readPayload_of_writeFile (hcount : f.Counts r.tokenCount) (h : f.writeFile r = some s) :
    f.readPayload s r.hash = some r.payload := by
  obtain ⟨rfl, hle⟩ := writeFile_iff.mp h
  have hlen : (f.header r ++ r.payload).length = kHeaderBytes + r.payload.length := by
    rw [length_append, f.length_header]
  have hheader : f.readHeader (f.header r ++ r.payload) = some (f.parsed r, r.payload) := by
    refine readHeader_iff.mpr ⟨⟨rfl, rfl, hcount.1, hcount.2, ?_⟩, rfl⟩
    show r.payload.length ≤ streamMax
    omega
  have hend : fileEnd (f.header r ++ r.payload) = (kHeaderBytes + r.payload.length : Nat) := by
    rw [fileEnd, if_pos hle, hlen]
  have hall : readBytes r.payload.length r.payload = some (r.payload, []) :=
    readBytes_iff.mpr ⟨rfl, (List.append_nil _).symm⟩
  have hmax : streamMax = 2 ^ 63 - 1 := rfl
  have hword : (kHeaderBytes + r.payload.length) % 2 ^ 64 = kHeaderBytes + r.payload.length := by
    rw [hlen] at hle
    omega
  have hbig : ¬u64Max - kHeaderBytes < r.payload.length := by
    have hheaderBytes : kHeaderBytes = 156 := rfl
    have hu64 : u64Max = 2 ^ 64 - 1 := rfl
    omega
  have hchecks : ¬((f.header r ++ r.payload).length - r.payload.length ≠ kHeaderBytes ∨
      fileEnd (f.header r ++ r.payload) < 0 ∨ u64Max - kHeaderBytes < r.payload.length ∨
      fileEnd (f.header r ++ r.payload) ≠
        ((kHeaderBytes + r.payload.length) % 2 ^ 64 : Nat)) := by
    rw [hend, hword, hlen]
    omega
  simp only [BlockFormat.readPayload, hheader, Option.bind_eq_bind, Option.bind_some,
    BlockFormat.parsed, ne_eq, not_true_eq_false, if_false, hall]
  rw [if_neg hchecks]

/-- What is read was written: by a request for this hash, with some parent and token count. -/
theorem writeFile_of_readPayload {payload : Payload} (hread : f.readPayload s h = some payload) :
    ∃ r : WriteRequest BlockHash, r.hash = h ∧ f.Counts r.tokenCount ∧ r.payload = payload ∧
      f.writeFile r = some s := by
  simp only [BlockFormat.readPayload, Option.bind_eq_bind, Option.bind_eq_some_iff,
    Prod.exists] at hread
  obtain ⟨header, rest, hheader, hread⟩ := hread
  obtain ⟨⟨hcompatibility, hsize, hpositive, hbounded, hmax⟩, rfl⟩ := readHeader_iff.mp hheader
  split at hread
  · cases hread
  · rename_i hhash
    split at hread
    · cases hread
    · rename_i hchecks
      simp only [Option.bind_eq_some_iff, Prod.exists] at hread
      obtain ⟨bytes, rest', hbytes, hread⟩ := hread
      obtain ⟨hlen, rfl⟩ := readBytes_iff.mp hbytes
      split at hread
      · cases hread
      · rename_i hsum
        obtain rfl := Option.some.inj hread
        obtain ⟨-, hend, hbig, hfile⟩ : _ ∧ _ ∧ _ ∧ _ := by
          simpa only [not_or, not_not, ne_eq, not_lt] using hchecks
        have hhash' : header.hash = h := not_not.mp hhash
        have hsum' : f.sha256 bytes = header.payloadHash := not_not.mp hsum
        have hstream : (header.bytes ++ (bytes ++ rest')).length ≤ streamMax := by
          by_contra hlong
          rw [fileEnd, if_neg hlong] at hend
          omega
        have hword : (kHeaderBytes + header.payloadBytes) % 2 ^ 64 =
            kHeaderBytes + header.payloadBytes := by
          have hmax' : streamMax = 2 ^ 63 - 1 := rfl
          have hheaderBytes : kHeaderBytes = 156 := rfl
          omega
        -- the length of the file leaves nothing behind the payload
        have hrest : rest' = [] := by
          rw [fileEnd, if_pos hstream, hword] at hfile
          have hcount : (header.bytes ++ (bytes ++ rest')).length =
              kHeaderBytes + header.payloadBytes := by exact_mod_cast hfile
          simp only [length_append, header.length_bytes, hlen] at hcount
          exact length_eq_zero_iff.mp (by omega)
        subst hrest
        rw [List.append_nil] at hstream ⊢
        refine ⟨{ hash := header.hash, parent := header.parent, tokenCount := header.tokenCount
                  payload := bytes, epoch := 0, replaceExisting := false, tokens := [] },
          hhash', ⟨hpositive, hsize ▸ hbounded⟩, rfl, writeFile_iff.mpr ⟨?_, hstream⟩⟩
        congr 1
        obtain ⟨compatibility, hash, parent, blockSize, tokenCount, payloadBytes, payloadHash⟩ :=
          header
        dsimp only at hcompatibility hsize hlen hsum'
        rw [f.header_eq, BlockFormat.parsed, hcompatibility, hsize, ← hlen, hsum']

/-! ### Damaged files -/

theorem length_of_header {r' : WriteRequest BlockHash} {xs ys : List UInt8}
    (heq : f.header r ++ xs = f.header r' ++ ys) (hr : r.payload.length < 2 ^ 64)
    (hr' : r'.payload.length < 2 ^ 64) : r.payload.length = r'.payload.length := by
  have hheader : (f.parsed r).bytes = (f.parsed r').bytes :=
    append_inj_left heq ((f.length_header r).trans (f.length_header r').symm)
  have hread : ∀ r : WriteRequest BlockHash, r.payload.length < 2 ^ 64 →
      ∃ rest, readLittleEndian 8 ((f.parsed r).bytes.drop 116) = some (r.payload.length, rest) := by
    intro r hr
    have hdrop : (f.parsed r).bytes.drop 116 =
        littleEndian 8 r.payload.length ++ (f.sha256 r.payload).bytes := by
      have hfront : (f.parsed r).bytes = (kMagic ++ (littleEndian 4 kFormatVersion ++
          (f.compatibilityHash.bytes ++ (r.hash.bytes ++ (r.parent.bytes ++
            (littleEndian 4 f.blockSizeTokens ++ littleEndian 4 r.tokenCount)))))) ++
              (littleEndian 8 r.payload.length ++ (f.sha256 r.payload).bytes) := by
        simp only [ParsedHeader.bytes, BlockFormat.parsed, List.append_assoc]
      rw [hfront]
      refine drop_left' ?_
      simp only [length_append, length_littleEndian, f.compatibilityHash.size, r.hash.size,
        r.parent.size]
      rfl
    exact ⟨_, readLittleEndian_iff.mpr ⟨by norm_num; omega, hdrop⟩⟩
  obtain ⟨rest, hrest⟩ := hread r hr
  obtain ⟨rest', hrest'⟩ := hread r' hr'
  rw [hheader, hrest'] at hrest
  exact (Prod.mk.inj (Option.some.inj hrest)).1.symm

theorem writeFile_length (h : f.writeFile r = some s) :
    s.length = kHeaderBytes + r.payload.length ∧ r.payload.length < 2 ^ 64 := by
  obtain ⟨rfl, hle⟩ := writeFile_iff.mp h
  have hmax : streamMax = 2 ^ 63 - 1 := rfl
  rw [length_append, f.length_header] at hle ⊢
  exact ⟨rfl, by omega⟩

/-- A file of another length with the same header is not read, under any hash. -/
theorem readPayload_resized {s' : List UInt8} (hwrite : f.writeFile r = some s)
    (hheader : s'.take kHeaderBytes = s.take kHeaderBytes) (hlen : s'.length ≠ s.length)
    (h : BlockHash) : f.readPayload s' h = none := by
  cases hread : f.readPayload s' h with
  | none => rfl
  | some payload =>
    obtain ⟨r', -, -, -, hwrite'⟩ := writeFile_of_readPayload hread
    obtain ⟨hsize, hlt⟩ := writeFile_length hwrite
    obtain ⟨hsize', hlt'⟩ := writeFile_length hwrite'
    obtain ⟨hs, -⟩ := writeFile_iff.mp hwrite
    obtain ⟨hs', -⟩ := writeFile_iff.mp hwrite'
    have htake : ∀ r : WriteRequest BlockHash,
        (f.header r ++ r.payload).take kHeaderBytes = f.header r :=
      fun r => take_left' (f.length_header r)
    rw [hs, hs', htake, htake] at hheader
    have hsame := length_of_header (congrArg (· ++ ([] : List UInt8)) hheader) hlt' hlt
    omega

/-- The fields of a header that a reader compares. -/
def BlockFormat.SameFields (f : BlockFormat) (r r' : WriteRequest BlockHash) : Prop :=
  r'.hash = r.hash ∧ f.Counts r'.tokenCount ∧ r'.payload = r.payload

/-- The block file codec: what was written is read back; what is read is the encoding of a
    request for this hash; truncated and extended files are rejected, and so is every header that
    is not that of a request with the same hash and payload. -/
theorem block_file_codec (f : BlockFormat) :
    (∀ (r : WriteRequest BlockHash) (s : List UInt8), f.Counts r.tokenCount →
      f.writeFile r = some s → f.readPayload s r.hash = some r.payload) ∧
    (∀ (s : List UInt8) (h : BlockHash), (f.readPayload s h).isSome ↔
      ∃ r : WriteRequest BlockHash, r.hash = h ∧ f.Counts r.tokenCount ∧ f.writeFile r = some s) ∧
    (∀ (r : WriteRequest BlockHash) (s : List UInt8), f.writeFile r = some s →
      (∀ n < s.length, ∀ h, f.readPayload (s.take n) h = none) ∧
      (∀ more ≠ [], ∀ h, f.readPayload (s ++ more) h = none) ∧
      ∀ header : List UInt8, header.length = kHeaderBytes →
        f.readPayload (header ++ r.payload) r.hash ≠ none →
          ∃ r', f.SameFields r r' ∧ header = f.header r') := by
  refine ⟨fun r s hcount hwrite => readPayload_of_writeFile hcount hwrite, fun s h => ?_,
    fun r s hwrite => ⟨fun n hn h => ?_, fun more hmore h => ?_, fun header hlen hread => ?_⟩⟩
  · rw [Option.isSome_iff_exists]
    constructor
    · rintro ⟨payload, hread⟩
      obtain ⟨r, hhash, hcount, -, hwrite⟩ := writeFile_of_readPayload hread
      exact ⟨r, hhash, hcount, hwrite⟩
    · rintro ⟨r, rfl, hcount, hwrite⟩
      exact ⟨r.payload, readPayload_of_writeFile hcount hwrite⟩
  · have hlen : (s.take n).length = n := length_take_of_le (by omega)
    by_cases hshort : n < kHeaderBytes
    · cases hread : f.readPayload (s.take n) h with
      | none => rfl
      | some payload =>
        obtain ⟨r', -, -, -, hwrite'⟩ := writeFile_of_readPayload hread
        have hsize := (writeFile_length hwrite').1
        omega
    · refine readPayload_resized hwrite ?_ (by omega) h
      rw [take_take, min_eq_left (by omega)]
  · have hpos := length_pos_of_ne_nil hmore
    have hsize := (writeFile_length hwrite).1
    refine readPayload_resized hwrite ?_ ?_ h
    · rw [take_append_of_le_length (by omega)]
    · rw [length_append]
      omega
  · obtain ⟨payload, hpayload⟩ := Option.ne_none_iff_exists'.mp hread
    obtain ⟨r', hhash, hcount, rfl, hwrite'⟩ := writeFile_of_readPayload hpayload
    obtain ⟨heq, -⟩ := writeFile_iff.mp hwrite'
    have hinj := append_inj heq (hlen.trans (f.length_header r').symm)
    exact ⟨r', ⟨hhash, hcount, hinj.2.symm⟩, hinj.1⟩

/-! ### A changed parent -/

/-- Every change of the header makes the file unreadable. -/
def BlockFormat.HeaderChangesRejected (f : BlockFormat) : Prop :=
  ∀ (r : WriteRequest BlockHash) (s : List UInt8), f.Counts r.tokenCount →
    f.writeFile r = some s → ∀ header : List UInt8, header.length = kHeaderBytes →
      header ≠ f.header r → f.readPayload (header ++ r.payload) r.hash = none

def sampleHash (b : UInt8) : BlockHash := ⟨List.replicate 32 b, length_replicate⟩

def sampleFormat : BlockFormat where
  compatibilityHash := sampleHash 1
  blockSizeTokens := 4
  positive := by decide
  bounded := by decide
  sha256 := fun payload => sampleHash (payload.foldl (fun sum b => 31 * sum + b) 7)

def sampleRequest (parent : UInt8) : WriteRequest BlockHash where
  hash := sampleHash 2
  parent := sampleHash parent
  tokenCount := 3
  payload := [10, 20]
  epoch := 0
  replaceExisting := false
  tokens := []

theorem sampleRequest_written (parent : UInt8) : sampleFormat.writeFile (sampleRequest parent) =
    some (sampleFormat.header (sampleRequest parent) ++ [10, 20]) := by
  refine writeFile_iff.mpr ⟨rfl, ?_⟩
  rw [length_append, BlockFormat.length_header]
  decide

theorem block_file_codec_sample :
    sampleFormat.readPayload (sampleFormat.header (sampleRequest 3) ++ [10, 20]) (sampleHash 2) =
      some [10, 20] :=
  (block_file_codec sampleFormat).1 (sampleRequest 3) _ ⟨by decide, by decide⟩
    (sampleRequest_written 3)

/-- The parent is not compared with anything. -/
theorem reparented_accepted : ¬sampleFormat.HeaderChangesRejected := by
  intro h
  have hnone := h (sampleRequest 3) _ ⟨by decide, by decide⟩ (sampleRequest_written 3)
    (sampleFormat.header (sampleRequest 4)) (sampleFormat.length_header _) (by decide)
  have hsome := readPayload_of_writeFile (f := sampleFormat) (r := sampleRequest 4)
    ⟨by decide, by decide⟩ (sampleRequest_written 4)
  exact absurd (hnone.symm.trans hsome) (by simp)

end TyloQuant.PrefixCache
