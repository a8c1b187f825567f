import Mathlib.Data.List.TakeDrop
import Mathlib.Tactic.IntervalCases
import TyloQuant.Shards.Records

/-!
# MFQ shards: file names

A shard of an output is named after it: the stem of the output, the index and the count with five
digits each, and the suffix.  `format_shard_path` makes such a name and `parse_shard_path` takes
it apart; `matching_shard_paths` lists the files of a directory that parse back to the output.

The parsed base carries its suffix in lower case, so the shards of an output are found again
exactly when the output itself is named with one of the suffixes in lower case.
-/

namespace TyloQuant.Shards

open List

/-- A file name. -/
abbrev Name := List Char

/-! ### `pathlib` -/

/-- `stem` and `suffix`: a dot that starts or ends the name starts no suffix. -/
def splitSuffix (name : Name) : Name × Name :=
  let dot := name.length - 1 - (name.reverse.takeWhile (· != '.')).length
  if '.' ∈ name ∧ 0 < dot ∧ dot < name.length - 1 then (name.take dot, name.drop dot)
  else (name, [])

/-- `str.lower`, which no character outside ASCII takes to one of those compared with here. -/
def lower (name : Name) : Name := name.map Char.toLower

/-- `MFQ_SUFFIXES`. -/
def mfqSuffixes : List Name := [".mfq".toList, ".tq".toList]

/-! ### Making a name -/

def digit (d : Nat) : Char := Char.ofNat (48 + d)

/-- `{n:05d}`, for a number of at most five digits. -/
def fiveDigits (n : Nat) : Name :=
  [digit (n / 10000), digit (n / 1000 % 10), digit (n / 100 % 10), digit (n / 10 % 10),
    digit (n % 10)]

/-- The stem and the suffix that the shards of an output have. -/
def shardParts (output : Name) : Name × Name :=
  let (stem, suffix) := splitSuffix output
  if lower suffix ∈ mfqSuffixes then (stem, lower suffix) else (output, ".mfq".toList)

/-- `-00001-of-00004`. -/
def shardNumbers (index count : Nat) : Name :=
  '-' :: fiveDigits index ++ "-of-".toList ++ fiveDigits count

/-- `format_shard_path`. -/
def formatShardPath (output : Name) (index count : Nat) : Except ShardError Name :=
  if ¬(1 ≤ index ∧ index ≤ count ∧ count ≤ 99999) then
    .error (.value s!"invalid MFQ shard index/count: {index}/{count}")
  else .ok ((shardParts output).1 ++ shardNumbers index count ++ (shardParts output).2)

/-! ### Taking a name apart -/

/-- `[0-9]{5}`. -/
def parseFive (digits : Name) : Option Nat :=
  if digits.length = 5 ∧ digits.all Char.isDigit then
    some (digits.foldl (fun n c => 10 * n + (c.toNat - 48)) 0)
  else none

/-- `-(?P<index>[0-9]{5})-of-(?P<count>[0-9]{5})`, ignoring case. -/
def parseNumbers (numbers : Name) : Option (Nat × Nat) :=
  if numbers.length = 15 ∧ numbers.take 1 = ['-'] ∧
      lower ((numbers.drop 6).take 4) = "-of-".toList then
    (parseFive ((numbers.drop 1).take 5)).bind fun index =>
      (parseFive (numbers.drop 10)).map fun count => (index, count)
  else none

/-- `_SHARD_RE` with one of its two suffixes: `.+` takes no line break. -/
def matchShard (suffix name : Name) : Option (Name × Nat × Nat) :=
  let rest := name.take (name.length - suffix.length)
  let stem := rest.take (rest.length - 15)
  if lower (name.drop (name.length - suffix.length)) = suffix ∧ 15 < rest.length ∧
      '\n' ∉ stem then
    (parseNumbers (rest.drop (rest.length - 15))).map fun numbers => (stem ++ suffix, numbers)
  else none

/-- `parse_shard_path`. -/
def parseShardPath (name : Name) : Except ShardError (Option (Name × Nat × Nat)) :=
  match mfqSuffixes.findSome? (matchShard · name) with
  | none => .ok none
  | some (base, index, count) =>
    if count < 1 ∨ index < 1 ∨ index > count then
      .error (.value s!"invalid MFQ shard file name: {String.ofList name}")
    else .ok (some (base, index, count))

/-- `matching_shard_paths`, given the files of the directory; a name that does not parse is left
    out. -/
def matchingShardPaths (output : Name) (files : List Name) : List Name :=
  files.filter fun name =>
    match parseShardPath name with
    | .ok (some (base, _, _)) => base == output
    | _ => false

/-- The name under which a file is built: `with_suffix(suffix + ".tmp")`. -/
def temporaryOf (name : Name) : Name :=
  (splitSuffix name).1 ++ ((splitSuffix name).2 ++ ".tmp".toList)

/-- The file belongs to the output: it is the output, parses back to it, or is one of its
    shards. -/
def InSet (output name : Name) : Prop :=
  name = output ∨ (∃ index count, parseShardPath name = .ok (some (output, index, count))) ∨
    ∃ index count, formatShardPath output index count = .ok name

/-! ### Facts about the parts -/

theorem splitSuffix_append (name : Name) : (splitSuffix name).1 ++ (splitSuffix name).2 = name := by
  unfold splitSuffix
  dsimp only
  split
  · exact take_append_drop _ _
  · exact List.append_nil _

theorem temporaryOf_eq (name : Name) : temporaryOf name = name ++ ".tmp".toList := by
  rw [temporaryOf, ← List.append_assoc, splitSuffix_append]

variable {name : Name}

theorem stem_ne_nil (h : name ≠ []) : (splitSuffix name).1 ≠ [] := by
  unfold splitSuffix
  dsimp only
  split
  · rename_i hdot
    intro hempty
    have hlength := congrArg List.length hempty
    rw [length_take, length_nil] at hlength
    omega
  · exact h

theorem lower_append (xs ys : Name) : lower (xs ++ ys) = lower xs ++ lower ys := map_append

theorem shardSuffix_mem (output : Name) : (shardParts output).2 ∈ mfqSuffixes := by
  unfold shardParts
  dsimp only
  split
  · assumption
  · exact mem_cons_self

variable {suffix : Name}

theorem lower_of_mem_mfqSuffixes (h : suffix ∈ mfqSuffixes) : lower suffix = suffix := by
  simp only [mfqSuffixes, mem_cons, not_mem_nil, or_false] at h
  rcases h with rfl | rfl <;> decide

/-! ### Round trip -/

theorem digit_spec {d : Nat} (h : d < 10) :
    (digit d).toNat = 48 + d ∧ (digit d).isDigit = true := by
  interval_cases d <;> decide

theorem parseFive_fiveDigits {n : Nat} (h : n ≤ 99999) : parseFive (fiveDigits n) = some n := by
  have h1 := digit_spec (show n / 10000 < 10 by omega)
  have h2 := digit_spec (show n / 1000 % 10 < 10 by omega)
  have h3 := digit_spec (show n / 100 % 10 < 10 by omega)
  have h4 := digit_spec (show n / 10 % 10 < 10 by omega)
  have h5 := digit_spec (show n % 10 < 10 by omega)
  rw [parseFive, if_pos]
  · simp only [fiveDigits, foldl_cons, foldl_nil, h1.1, h2.1, h3.1, h4.1, h5.1]
    congr 1
    omega
  · refine ⟨rfl, ?_⟩
    simp only [fiveDigits, all_cons, all_nil, h1.2, h2.2, h3.2, h4.2, h5.2, Bool.and_self]

theorem length_shardNumbers (index count : Nat) : (shardNumbers index count).length = 15 := rfl

variable {count index : Nat}

theorem parseNumbers_shardNumbers (hindex : index ≤ 99999) (hcount : count ≤ 99999) :
    parseNumbers (shardNumbers index count) = some (index, count) := by
  rw [parseNumbers, if_pos ⟨rfl, rfl, by rfl⟩]
  change (parseFive (fiveDigits index)).bind
    (fun i => (parseFive (fiveDigits count)).map fun n => (i, n)) = _
  rw [parseFive_fiveDigits hindex, parseFive_fiveDigits hcount]
  rfl

theorem matchShard_name {stem : Name} (index count : Nat) (hstem : stem ≠ [])
    (hline : '\n' ∉ stem) (hsuffix : lower suffix = suffix) (hindex : index ≤ 99999)
    (hcount : count ≤ 99999) :
    matchShard suffix (stem ++ shardNumbers index count ++ suffix) =
      some (stem ++ suffix, index, count) := by
  have hlength := length_shardNumbers index count
  have hrest : (stem ++ shardNumbers index count ++ suffix).take
      ((stem ++ shardNumbers index count ++ suffix).length - suffix.length) =
        stem ++ shardNumbers index count := by
    rw [length_append, Nat.add_sub_cancel, take_left]
  have htail : (stem ++ shardNumbers index count ++ suffix).drop
      ((stem ++ shardNumbers index count ++ suffix).length - suffix.length) = suffix := by
    rw [length_append, Nat.add_sub_cancel, drop_left]
  have hcut : (stem ++ shardNumbers index count).length - 15 = stem.length := by
    rw [length_append, hlength, Nat.add_sub_cancel]
  have hpos : 0 < stem.length := length_pos_iff.mpr hstem
  rw [matchShard, hrest, htail, hcut, take_left, drop_left, hsuffix,
    if_pos ⟨rfl, by rw [length_append, hlength]; omega, hline⟩,
    parseNumbers_shardNumbers hindex hcount]
  rfl

theorem matchShard_mfq_tq (stem : Name) (index count : Nat) :
    matchShard ".mfq".toList (stem ++ shardNumbers index count ++ ".tq".toList) = none := by
  rw [matchShard, if_neg]
  rintro ⟨hlower, -⟩
  have hlast : ∃ c, (stem ++ shardNumbers index count ++ ".tq".toList).drop
      ((stem ++ shardNumbers index count ++ ".tq".toList).length - ".mfq".toList.length) =
        [c, '.', 't', 'q'] := by
    refine ⟨digit (count % 10), ?_⟩
    have hsplit : stem ++ shardNumbers index count ++ ".tq".toList =
        (stem ++ (shardNumbers index count).take 14) ++ [digit (count % 10), '.', 't', 'q'] := by
      rw [List.append_assoc, List.append_assoc]
      rfl
    rw [hsplit, length_append]
    exact drop_left
  obtain ⟨c, hc⟩ := hlast
  rw [hc] at hlower
  have hsecond := congrArg (fun xs : Name => xs[1]?) hlower
  revert hsecond
  simp [lower]

variable {output : Name}

/-- What the parser makes of a shard's name. -/
theorem parse_format (houtput : output ≠ []) (hline : '\n' ∉ output)
    (h : formatShardPath output index count = .ok name) :
    parseShardPath name =
      .ok (some ((shardParts output).1 ++ (shardParts output).2, index, count)) := by
  rw [formatShardPath, Lib.guard_eq_ok] at h
  obtain ⟨hvalid, hname⟩ := h
  rw [not_not] at hvalid
  cases hname
  have hparts : (shardParts output).1 ≠ [] ∧ '\n' ∉ (shardParts output).1 := by
    unfold shardParts
    dsimp only
    split
    · refine ⟨stem_ne_nil houtput, fun hmem => hline ?_⟩
      rw [← splitSuffix_append output]
      exact mem_append_left _ hmem
    · exact ⟨houtput, hline⟩
  have hsuffix := shardSuffix_mem output
  have hmatch := matchShard_name index count hparts.1 hparts.2
    (lower_of_mem_mfqSuffixes hsuffix) (by omega) (by omega)
  have hfind : mfqSuffixes.findSome? (matchShard · ((shardParts output).1 ++
      shardNumbers index count ++ (shardParts output).2)) =
        some ((shardParts output).1 ++ (shardParts output).2, index, count) := by
    simp only [mfqSuffixes, mem_cons, not_mem_nil, or_false] at hsuffix
    rcases hsuffix with hmfq | htq
    · rw [mfqSuffixes, findSome?_cons, ← hmfq, hmatch]
    · rw [mfqSuffixes, findSome?_cons]
      rw [htq] at hmatch ⊢
      rw [matchShard_mfq_tq, findSome?_cons, hmatch]
  rw [parseShardPath, hfind]
  exact if_neg (by omega)

/-! ### What belongs to an output -/

theorem parse_of_matching {files : List Name} :
    name ∈ matchingShardPaths output files ↔
      name ∈ files ∧ ∃ index count, parseShardPath name = .ok (some (output, index, count)) := by
  rw [matchingShardPaths, mem_filter]
  refine and_congr_right fun _ => ?_
  rcases parseShardPath name with e | _ | ⟨base, index, count⟩
  · simp
  · simp
  · constructor
    · intro h
      have hbase : base = output := by simpa using h
      exact ⟨index, count, by rw [hbase]⟩
    · rintro ⟨_, _, h⟩
      cases h
      simp

/-- The shards of an output that is named with a suffix in lower case are all found. -/
theorem parse_of_inSet (houtput : output ≠ []) (hline : '\n' ∉ output)
    (hlower : (splitSuffix output).2 ∈ mfqSuffixes) (h : InSet output name) (hne : name ≠ output) :
    ∃ index count, parseShardPath name = .ok (some (output, index, count)) := by
  rcases h with rfl | h | ⟨index, count, h⟩
  · exact absurd rfl hne
  · exact h
  · refine ⟨index, count, ?_⟩
    have hparts : (shardParts output).1 ++ (shardParts output).2 = output := by
      have hsuffix := lower_of_mem_mfqSuffixes hlower
      unfold shardParts
      dsimp only
      rw [hsuffix, if_pos hlower]
      exact splitSuffix_append output
    rw [parse_format houtput hline h, hparts]

theorem lower_of_matchShard {parsed : Name × Nat × Nat} (h : matchShard suffix name = some parsed) :
    ∃ stem, lower name = stem ++ suffix := by
  rw [matchShard] at h
  split at h
  · rename_i hmatch
    refine ⟨lower (name.take (name.length - suffix.length)), ?_⟩
    conv => lhs; rw [← take_append_drop (name.length - suffix.length) name]
    rw [lower_append, hmatch.1]
  · cases h

/-- The base of a shard's name is shorter than the name. -/
theorem length_of_parse {base : Name} (h : parseShardPath name = .ok (some (base, index, count))) :
    base.length < name.length := by
  rw [parseShardPath] at h
  cases hfind : mfqSuffixes.findSome? (matchShard · name) with
  | none =>
    rw [hfind] at h
    cases h
  | some parsed =>
    obtain ⟨base', index', count'⟩ := parsed
    rw [hfind] at h
    dsimp only at h
    rw [Lib.guard_eq_ok] at h
    cases h.2
    obtain ⟨suffix, -, hmatch⟩ := exists_of_findSome?_eq_some hfind
    rw [matchShard] at hmatch
    split at hmatch
    · rename_i hparts
      obtain ⟨numbers, -, heq⟩ := Option.map_eq_some_iff.mp hmatch
      cases heq
      have hlower := congrArg List.length hparts.1
      have hrest := hparts.2.1
      rw [lower, length_map, length_drop] at hlower
      simp only [length_append, length_take] at hrest ⊢
      omega
    · cases hmatch

/-- A file of the set that is not the output ends like a model file. -/
theorem InSet.ends (h : InSet output name) (hne : name ≠ output) :
    ∃ stem, ∃ suffix ∈ mfqSuffixes, lower name = stem ++ suffix := by
  rcases h with rfl | ⟨index, count, h⟩ | ⟨index, count, h⟩
  · exact absurd rfl hne
  · rw [parseShardPath] at h
    cases hfind : mfqSuffixes.findSome? (matchShard · name) with
    | none =>
      rw [hfind] at h
      cases h
    | some parsed =>
      obtain ⟨suffix, hmem, hmatch⟩ := exists_of_findSome?_eq_some hfind
      obtain ⟨stem, hstem⟩ := lower_of_matchShard hmatch
      exact ⟨stem, suffix, hmem, hstem⟩
  · rw [formatShardPath, Lib.guard_eq_ok] at h
    cases h.2
    exact ⟨_, _, shardSuffix_mem output, by
      rw [lower_append, lower_of_mem_mfqSuffixes (shardSuffix_mem output)]⟩

theorem length_shardParts (output : Name) :
    output.length ≤ (shardParts output).1.length + (shardParts output).2.length := by
  have hsplit := congrArg List.length (splitSuffix_append output)
  rw [length_append] at hsplit
  unfold shardParts
  dsimp only
  split
  · rw [lower, length_map]
    exact hsplit.ge
  · exact Nat.le_add_right _ _

theorem length_le_of_destination {destination : Name}
    (h : destination = output ∨ ∃ index count, formatShardPath output index count = .ok destination) :
    output.length ≤ destination.length := by
  rcases h with rfl | ⟨index, count, h⟩
  · exact le_rfl
  · rw [formatShardPath, Lib.guard_eq_ok] at h
    cases h.2
    have hparts := length_shardParts output
    rw [length_append, length_append]
    omega

/-- The temporary files are no files of the set. -/
theorem temporaryOf_not_inSet {destination : Name}
    (h : destination = output ∨ ∃ index count, formatShardPath output index count = .ok destination) :
    ¬InSet output (temporaryOf destination) := by
  intro hin
  have hlength := length_le_of_destination h
  have hne : temporaryOf destination ≠ output := by
    intro heq
    rw [temporaryOf_eq] at heq
    have hlong := congrArg List.length heq
    rw [length_append] at hlong
    have htmp : ".tmp".toList.length = 4 := by decide
    omega
  obtain ⟨stem, suffix, hsuffix, hends⟩ := hin.ends hne
  rw [temporaryOf_eq, lower_append] at hends
  have hlast := congrArg List.getLast? hends
  simp only [mfqSuffixes, mem_cons, not_mem_nil, or_false] at hsuffix
  rcases hsuffix with rfl | rfl <;> simp [lower] at hlast

theorem formatShardPath_inj {i j : Nat} (hi : formatShardPath output i count = .ok name)
    (hj : formatShardPath output j count = .ok name) : i = j := by
  rw [formatShardPath, Lib.guard_eq_ok, not_not] at hi hj
  have hname : (shardParts output).1 ++ shardNumbers i count ++ (shardParts output).2 =
      (shardParts output).1 ++ shardNumbers j count ++ (shardParts output).2 :=
    Except.ok.inj (hi.2.trans hj.2.symm)
  have hnumbers := append_cancel_left (append_cancel_right hname)
  have hparsed := parseNumbers_shardNumbers (show i ≤ 99999 by omega) (show count ≤ 99999 by omega)
  rw [hnumbers, parseNumbers_shardNumbers (by omega) (by omega)] at hparsed
  exact (Prod.mk.inj (Option.some.inj hparsed)).1.symm

end TyloQuant.Shards
