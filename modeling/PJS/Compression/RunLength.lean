import PJS.Compression.Strategy
import PJS.Lib.Runs

/-! Run-length coding of arrays. Arrays of more than two elements are cut into runs and not looked
into; smaller ones are looked into and not cut. The decoder looks into everything but the values
of runs, and takes every array element for a run that has the keys of one. -/
namespace PJS

def maxRleCount : ℕ := 100000

def maxDecompressedSize : ℕ := 10485760

section Encoder
variable (config : CompressionConfig)

/-- A run that ends: coded if it is long enough, else its value once. -/
def closeRun (value : JsonValue) (runCount : UInt32) : JsonValue :=
  if runCount > config.minFrequencyCount then
    .object [("rle_count", JsonValue.number (.posInt runCount.toUInt64)), ("rle_value", value)]
  else value

/-- The scan: the runs closed so far, and the value and length of the open one. -/
def scanItem : List JsonValue × Option JsonValue × UInt32 → JsonValue →
    List JsonValue × Option JsonValue × UInt32
  | (compressedRuns, currentValue, runCount), item =>
    if currentValue.map JsonValue.canon = some item.canon then
      (compressedRuns, currentValue, runCount + 1)
    else
      match currentValue with
      | some value => (compressedRuns ++ [closeRun config value runCount], some item, 1)
      | none => (compressedRuns, some item, 1)

/-- The final run. -/
def finishScan : List JsonValue × Option JsonValue × UInt32 → List JsonValue
  | (compressedRuns, some value, runCount) => compressedRuns ++ [closeRun config value runCount]
  | (compressedRuns, none, _) => compressedRuns

def encodeRuns (arr : List JsonValue) : List JsonValue :=
  finishScan config (arr.foldl (scanItem config) ([], none, 0))

mutual

/-- Apply run-length encoding to arrays with repeated values. -/
def applyRunLengthEncoding : JsonValue → JsonValue
  | .object obj => .object (encodeFields obj)
  | .array arr =>
    if arr.length > 2 then .array (encodeRuns config arr) else .array (encodeItems arr)
  | .scalar s => .scalar s

def encodeItems : List JsonValue → List JsonValue
  | [] => []
  | item :: items => applyRunLengthEncoding item :: encodeItems items

def encodeFields : JsonMap → JsonMap
  | [] => []
  | (key, value) :: fields => (key, applyRunLengthEncoding value) :: encodeFields fields

end

end Encoder

section Decoder

/-- The run that an object stands for, if it stands for one. -/
def readRun (totalSize : ℕ) (obj : JsonMap) : DomainResult (Option (JsonValue × ℕ)) :=
  match obj.lookup "rle_value", obj.lookup "rle_count" with
  | some _, none =>
    .error (.compressionError "Malformed RLE object: rle_value without rle_count")
  | none, some _ =>
    .error (.compressionError "Malformed RLE object: rle_count without rle_value")
  | none, none => .ok none
  | some value, some count =>
    match count.asU64 with
    | none => .error (.compressionError "Invalid rle_count: expected positive integer")
    | some count =>
      if count > maxRleCount then
        .error (.compressionError s!"RLE count {count} exceeds maximum {maxRleCount}")
      else if totalSize + count ≥ 2 ^ 64 then
        .error (.compressionError "Total decompressed size overflow")
      else if totalSize + count > maxDecompressedSize then
        .error (.compressionError
          s!"Decompressed size {totalSize + count} exceeds maximum {maxDecompressedSize}")
      else .ok (some (value, count))

/-- Only objects stand for runs. -/
def readItem (totalSize : ℕ) : JsonValue → DomainResult (Option (JsonValue × ℕ))
  | .object obj => readRun totalSize obj
  | _ => .ok none

mutual

/-- Decompress run-length encoded data. -/
def decompressRunLength : JsonValue → DomainResult JsonValue
  | .object obj => do return .object (← decompressFields obj)
  | .array arr => do return .array (← decompressItems 0 arr)
  | .scalar s => .ok (.scalar s)

/-- The elements of an array, with the size of the runs before them. -/
def decompressItems (totalSize : ℕ) : List JsonValue → DomainResult (List JsonValue)
  | [] => .ok []
  | item :: items =>
    match readItem totalSize item with
    | .error e => .error e
    | .ok (some (value, count)) => do
      return List.replicate count value ++ (← decompressItems (totalSize + count) items)
    | .ok none => do
      let value ← decompressRunLength item
      return value :: (← decompressItems totalSize items)

def decompressFields : JsonMap → DomainResult JsonMap
  | [] => .ok []
  | (key, value) :: fields => do
    let value ← decompressRunLength value
    return (key, value) :: (← decompressFields fields)

end

end Decoder

section Equations
variable (config : CompressionConfig)

theorem applyRunLengthEncoding_object (obj : JsonMap) :
    applyRunLengthEncoding config (.object obj) =
      .object (obj.map fun e => (e.1, applyRunLengthEncoding config e.2)) := by
  rw [applyRunLengthEncoding, Doc.object.injEq]
  induction obj with
  | nil => rfl
  | cons e obj ih => rw [encodeFields, ih, List.map_cons]

theorem applyRunLengthEncoding_short {arr : List JsonValue} (h : arr.length ≤ 2) :
    applyRunLengthEncoding config (.array arr) =
      .array (arr.map (applyRunLengthEncoding config)) := by
  rw [applyRunLengthEncoding, if_neg (not_lt.mpr h), Doc.array.injEq]
  clear h
  induction arr with
  | nil => rfl
  | cons item arr ih => rw [encodeItems, ih, List.map_cons]

/-- What becomes of a run. The count is a machine integer. -/
def codeRun (r : JsonValue × ℕ) : JsonValue := closeRun config r.1 (UInt32.ofNat r.2)

theorem finishScan_foldl (arr closed : List JsonValue) (current : JsonValue) (n : ℕ) :
    finishScan config (arr.foldl (scanItem config) (closed, some current, UInt32.ofNat n)) =
      closed ++ (Runs.runsFrom JsonValue.canon current n arr).map (codeRun config) := by
  induction arr generalizing closed current n with
  | nil => rfl
  | cons item arr ih =>
    rw [List.foldl_cons, scanItem, Runs.runsFrom]
    by_cases h : item.canon = current.canon
    · rw [if_pos (by rw [h]; rfl), if_pos h, ← UInt32.ofNat_one, ← UInt32.ofNat_add]
      exact ih closed current (n + 1)
    · have hne : ¬ (some current).map JsonValue.canon = some item.canon := by
        simpa using Ne.symm h
      rw [if_neg hne, if_neg h, List.map_cons]
      have hrest := ih (closed ++ [closeRun config current (UInt32.ofNat n)]) item 1
      rw [List.append_assoc] at hrest
      exact hrest

/-- The scan codes the runs one by one. -/
theorem encodeRuns_eq (arr : List JsonValue) :
    encodeRuns config arr = (Runs.runsBy JsonValue.canon arr).map (codeRun config) := by
  cases arr with
  | nil => rfl
  | cons item arr => exact finishScan_foldl config arr [] item 1

theorem applyRunLengthEncoding_long {arr : List JsonValue} (h : 2 < arr.length) :
    applyRunLengthEncoding config (.array arr) =
      .array ((Runs.runsBy JsonValue.canon arr).map (codeRun config)) := by
  rw [applyRunLengthEncoding, if_pos h, encodeRuns_eq]

end Equations

section Decoding

/-- The value and the count of an object with the keys of a run. -/
def run? : JsonValue → Option (JsonValue × ℕ)
  | .object obj =>
    match obj.lookup "rle_value", obj.lookup "rle_count" with
    | some value, some count => (JsonValue.asU64 count).map fun n => (value, n)
    | _, _ => none
  | _ => none

/-- An object has both keys of a run or none, and the count is one that is accepted. -/
def wellMarked : JsonValue → Bool
  | .object obj =>
    match obj.lookup "rle_value", obj.lookup "rle_count" with
    | none, none => true
    | some _, some count => (JsonValue.asU64 count).any fun n => n ≤ maxRleCount
    | _, _ => false
  | _ => true

def runCount (item : JsonValue) : ℕ := ((run? item).map Prod.snd).getD 0

mutual

/-- What the decoder makes of a value that it accepts. -/
def expand : JsonValue → JsonValue
  | .object obj => .object (expandFields obj)
  | .array arr => .array (expandItems arr)
  | .scalar s => .scalar s

def expandItems : List JsonValue → List JsonValue
  | [] => []
  | item :: items =>
    (match run? item with
    | some (value, count) => List.replicate count value
    | none => [expand item]) ++ expandItems items

def expandFields : JsonMap → JsonMap
  | [] => []
  | (key, value) :: fields => (key, expand value) :: expandFields fields

end

/-- What the decoder makes of an array element. -/
def expandItem (item : JsonValue) : List JsonValue :=
  match run? item with
  | some (value, count) => List.replicate count value
  | none => [expand item]

theorem expand_array (arr : List JsonValue) :
    expand (.array arr) = .array (arr.flatMap expandItem) := by
  rw [expand, Doc.array.injEq]
  induction arr with
  | nil => rfl
  | cons item arr ih =>
    rw [expandItems, ih, List.flatMap_cons]
    rfl

theorem expand_object (obj : JsonMap) :
    expand (.object obj) = .object (obj.map fun e => (e.1, expand e.2)) := by
  rw [expand, Doc.object.injEq]
  induction obj with
  | nil => rfl
  | cons e obj ih => rw [expandFields, ih, List.map_cons]

/-- The decoder accepts the value. -/
inductive Readable : JsonValue → Prop
  | scalar (s : JsonScalar) : Readable (.scalar s)
  | object {obj : JsonMap} (h : ∀ k v, (k, v) ∈ obj → Readable v) : Readable (.object obj)
  | array {arr : List JsonValue}
      (hmarked : ∀ x ∈ arr, wellMarked x = true) (h : ∀ x ∈ arr, run? x = none → Readable x)
      (htotal : (arr.map runCount).sum ≤ maxDecompressedSize) : Readable (.array arr)

/-- Everything that reading an element can come to. -/
theorem readItem_cases (totalSize : ℕ) (item : JsonValue) :
    (wellMarked item = false ∧ ∃ e, readItem totalSize item = .error e) ∨
    (wellMarked item = true ∧ run? item = none ∧ readItem totalSize item = .ok none) ∨
    ∃ value count, wellMarked item = true ∧ run? item = some (value, count) ∧
      ((maxDecompressedSize < totalSize + count ∧ ∃ e, readItem totalSize item = .error e) ∨
        totalSize + count ≤ maxDecompressedSize ∧
          readItem totalSize item = .ok (some (value, count))) := by
  cases item with
  | scalar s => exact Or.inr (Or.inl ⟨rfl, rfl, rfl⟩)
  | array arr => exact Or.inr (Or.inl ⟨rfl, rfl, rfl⟩)
  | object obj =>
    simp only [readItem, readRun, wellMarked, run?]
    cases obj.lookup "rle_value" with
    | none =>
      cases obj.lookup "rle_count" with
      | none => exact Or.inr (Or.inl ⟨rfl, rfl, rfl⟩)
      | some count => exact Or.inl ⟨rfl, _, rfl⟩
    | some value =>
      cases obj.lookup "rle_count" with
      | none => exact Or.inl ⟨rfl, _, rfl⟩
      | some count =>
        simp only
        cases JsonValue.asU64 count with
        | none => exact Or.inl ⟨rfl, _, rfl⟩
        | some n =>
          simp only [Option.any_some, Option.map_some]
          split_ifs with hmax hoverflow hsize
          · exact Or.inl ⟨by simpa using hmax, _, rfl⟩
          all_goals
            refine Or.inr (Or.inr ⟨value, n, by simpa using hmax, rfl, ?_⟩)
          · refine Or.inl ⟨?_, _, rfl⟩
            unfold maxDecompressedSize
            omega
          · exact Or.inl ⟨hsize, _, rfl⟩
          · exact Or.inr ⟨not_lt.mp hsize, rfl⟩

theorem decompressItems_eq_ok_iff {arr : List JsonValue}
    (ih : ∀ x ∈ arr, ∀ w, decompressRunLength x = .ok w ↔ Readable x ∧ w = expand x)
    {totalSize : ℕ} (htotal : totalSize ≤ maxDecompressedSize) (ws : List JsonValue) :
    decompressItems totalSize arr = .ok ws ↔
      ((∀ x ∈ arr, wellMarked x = true) ∧ (∀ x ∈ arr, run? x = none → Readable x) ∧
        totalSize + (arr.map runCount).sum ≤ maxDecompressedSize) ∧
      ws = arr.flatMap expandItem := by
  induction arr generalizing totalSize ws with
  | nil =>
    rw [decompressItems, Except.ok.injEq, List.flatMap_nil]
    exact ⟨fun h => ⟨⟨by simp, by simp, htotal⟩, h.symm⟩, fun h => h.2.symm⟩
  | cons item arr iharr =>
    rw [List.forall_mem_cons] at ih
    unfold decompressItems
    rw [List.forall_mem_cons, List.forall_mem_cons, List.map_cons, List.sum_cons, List.flatMap_cons]
    rcases readItem_cases totalSize item with
      ⟨hbad, e, he⟩ | ⟨hmarked, hrun, hread⟩ | ⟨value, count, hmarked, hrun, hread⟩
    · simp [hbad, he]
    · have hcount : runCount item = 0 := by simp [runCount, hrun]
      have hitem : expandItem item = [expand item] := by simp [expandItem, hrun]
      simp only [hread, hcount, hitem, Nat.zero_add, List.singleton_append]
      rw [bind_eq_ok_iff]
      constructor
      · rintro ⟨w, hw, hrest⟩
        obtain ⟨ws', hws', hcons⟩ := bind_eq_ok_iff.mp hrest
        cases hcons
        obtain ⟨hreadable, rfl⟩ := (ih.1 w).mp hw
        obtain ⟨⟨hmarks, hreads, hsum⟩, rfl⟩ := (iharr ih.2 htotal ws').mp hws'
        exact ⟨⟨⟨hmarked, hmarks⟩, ⟨fun _ => hreadable, hreads⟩, hsum⟩, rfl⟩
      · rintro ⟨⟨⟨-, hmarks⟩, ⟨hreadable, hreads⟩, hsum⟩, rfl⟩
        refine ⟨_, (ih.1 _).mpr ⟨hreadable hrun, rfl⟩, bind_eq_ok_iff.mpr ⟨_, ?_, rfl⟩⟩
        exact (iharr ih.2 htotal _).mpr ⟨⟨hmarks, hreads, hsum⟩, rfl⟩
    · have hcount : runCount item = count := by simp [runCount, hrun]
      have hitem : expandItem item = List.replicate count value := by simp [expandItem, hrun]
      rcases hread with ⟨hlarge, e, he⟩ | ⟨hsmall, hok⟩
      · simp only [he, hcount]
        constructor
        · intro h
          cases h
        · rintro ⟨⟨-, -, hsum⟩, -⟩
          omega
      · simp only [hok, hcount, hitem]
        rw [bind_eq_ok_iff, ← Nat.add_assoc]
        constructor
        · rintro ⟨ws', hws', hcons⟩
          cases hcons
          obtain ⟨⟨hmarks, hreads, hsum⟩, rfl⟩ := (iharr ih.2 hsmall ws').mp hws'
          exact ⟨⟨⟨hmarked, hmarks⟩, ⟨by simp [hrun], hreads⟩, hsum⟩, rfl⟩
        · rintro ⟨⟨⟨-, hmarks⟩, ⟨-, hreads⟩, hsum⟩, rfl⟩
          exact ⟨_, (iharr ih.2 hsmall _).mpr ⟨⟨hmarks, hreads, hsum⟩, rfl⟩, rfl⟩

theorem decompressFields_eq_ok_iff {obj : JsonMap}
    (ih : ∀ k v, (k, v) ∈ obj → ∀ w, decompressRunLength v = .ok w ↔ Readable v ∧ w = expand v)
    (fields : JsonMap) :
    decompressFields obj = .ok fields ↔
      (∀ k v, (k, v) ∈ obj → Readable v) ∧ fields = obj.map fun e => (e.1, expand e.2) := by
  induction obj generalizing fields with
  | nil =>
    rw [decompressFields, Except.ok.injEq, List.map_nil]
    exact ⟨fun h => ⟨by simp, h.symm⟩, fun h => h.2.symm⟩
  | cons e obj ihobj =>
    obtain ⟨key, value⟩ := e
    have hvalue := ih key value (by simp)
    have hobj := ihobj fun k v h => ih k v (by simp [h])
    rw [decompressFields, bind_eq_ok_iff, List.map_cons]
    constructor
    · rintro ⟨w, hw, hrest⟩
      obtain ⟨fields', hfields', hcons⟩ := bind_eq_ok_iff.mp hrest
      cases hcons
      obtain ⟨hreadable, rfl⟩ := (hvalue w).mp hw
      obtain ⟨hreads, rfl⟩ := (hobj fields').mp hfields'
      refine ⟨?_, rfl⟩
      intro k v hmem
      rcases List.mem_cons.mp hmem with h | h
      · cases h
        exact hreadable
      · exact hreads k v h
    · rintro ⟨hreads, rfl⟩
      refine ⟨_, (hvalue _).mpr ⟨hreads key value (by simp), rfl⟩, bind_eq_ok_iff.mpr ⟨_, ?_, rfl⟩⟩
      exact (hobj _).mpr ⟨fun k v h => hreads k v (by simp [h]), rfl⟩

/-- The decoder accepts exactly the readable values and expands them. -/
theorem decompressRunLength_eq_ok_iff (v w : JsonValue) :
    decompressRunLength v = .ok w ↔ Readable v ∧ w = expand v := by
  induction v using Doc.induction generalizing w with
  | scalar s =>
    rw [decompressRunLength, Except.ok.injEq]
    exact ⟨fun h => ⟨.scalar s, h.symm⟩, fun h => h.2.symm⟩
  | array arr ih =>
    rw [decompressRunLength, bind_eq_ok_iff, expand_array]
    have hitems := decompressItems_eq_ok_iff ih (Nat.zero_le _)
    simp only [Nat.zero_add] at hitems
    constructor
    · rintro ⟨ws, hws, hw⟩
      cases hw
      obtain ⟨⟨hmarks, hreads, hsum⟩, rfl⟩ := (hitems ws).mp hws
      exact ⟨.array hmarks hreads hsum, rfl⟩
    · rintro ⟨hreadable, rfl⟩
      cases hreadable with
      | array hmarks hreads hsum => exact ⟨_, (hitems _).mpr ⟨⟨hmarks, hreads, hsum⟩, rfl⟩, rfl⟩
  | object obj ih =>
    rw [decompressRunLength, bind_eq_ok_iff, expand_object]
    have hfields := decompressFields_eq_ok_iff fun k v hmem w => ih k v hmem w
    constructor
    · rintro ⟨fields, hf, hw⟩
      cases hw
      obtain ⟨hreads, rfl⟩ := (hfields fields).mp hf
      exact ⟨.object hreads, rfl⟩
    · rintro ⟨hreadable, rfl⟩
      cases hreadable with
      | object hreads => exact ⟨_, (hfields _).mpr ⟨hreads, rfl⟩, rfl⟩

end Decoding

section Growth

mutual

/-- By how many nodes the runs that the decoder expands outgrow the objects that stand for them. -/
def runGrowth : JsonValue → ℤ
  | .object obj => runGrowthFields obj
  | .array arr => runGrowthItems arr
  | .scalar _ => 0

def runGrowthItems : List JsonValue → ℤ
  | [] => 0
  | item :: items =>
    (match run? item with
    | some (value, count) => (count * value.nodes : ℤ) - item.nodes
    | none => runGrowth item) + runGrowthItems items

def runGrowthFields : JsonMap → ℤ
  | [] => 0
  | (_, value) :: fields => runGrowth value + runGrowthFields fields

end

theorem nodes_expandItem {item : JsonValue}
    (h : ((expand item).nodes : ℤ) = item.nodes + runGrowth item) :
    (((expandItem item).map Doc.nodes).sum : ℤ) = item.nodes +
      match run? item with
      | some (value, count) => (count * value.nodes : ℤ) - item.nodes
      | none => runGrowth item := by
  unfold expandItem
  cases run? item with
  | none => simpa using h
  | some r => simp

theorem nodes_expand (d : JsonValue) : ((expand d).nodes : ℤ) = d.nodes + runGrowth d := by
  induction d using Doc.induction with
  | scalar s => rfl
  | array arr ih =>
    have hsum : (((arr.flatMap expandItem).map Doc.nodes).sum : ℤ) =
        (arr.map Doc.nodes).sum + runGrowthItems arr := by
      induction arr with
      | nil => rfl
      | cons item arr iharr =>
        rw [List.forall_mem_cons] at ih
        have hitem := nodes_expandItem ih.1
        have harr := iharr ih.2
        rw [List.flatMap_cons, List.map_append, List.sum_append, List.map_cons, List.sum_cons,
          runGrowthItems]
        omega
    rw [expand_array, Doc.nodes_array, Doc.nodes_array, runGrowth]
    omega
  | object obj ih =>
    have hsum : ((obj.map fun e => (expand e.2).nodes).sum : ℤ) =
        (obj.map fun e => e.2.nodes).sum + runGrowthFields obj := by
      induction obj with
      | nil => rfl
      | cons e obj ihobj =>
        have hvalue := ih e.1 e.2 (by simp)
        have hobj := ihobj fun k v h => ih k v (by simp [h])
        rw [List.map_cons, List.sum_cons, List.map_cons, List.sum_cons, runGrowthFields]
        omega
    rw [expand_object, Doc.nodes_object, Doc.nodes_object, runGrowth, List.map_map]
    change ((1 + (obj.map fun e => (expand e.2).nodes).sum : ℕ) : ℤ) = _
    omega

/-- A decoded value outgrows its code by no more than the budget exactly if its runs do. -/
theorem nodes_decompressRunLength_le_iff {d w : JsonValue} (h : decompressRunLength d = .ok w) :
    w.nodes ≤ d.nodes + maxDecompressedSize ↔ runGrowth d ≤ maxDecompressedSize := by
  obtain ⟨-, rfl⟩ := (decompressRunLength_eq_ok_iff d w).mp h
  have hnodes := nodes_expand d
  omega

/-- An array with one run of `value`. -/
def oneRun (count : UInt64) (value : JsonValue) : JsonValue :=
  .array [.object [("rle_count", JsonValue.number (.posInt count)), ("rle_value", value)]]

theorem decompressRunLength_oneRun {count : UInt64} (h : count.toNat ≤ maxRleCount)
    (value : JsonValue) : decompressRunLength (oneRun count value) =
      .ok (.array (List.replicate count.toNat value)) := by
  rw [decompressRunLength_eq_ok_iff, oneRun, expand_array, List.flatMap_singleton]
  refine ⟨.array ?_ ?_ ?_, rfl⟩
  · rw [List.forall_mem_singleton]
    exact decide_eq_true h
  · rw [List.forall_mem_singleton]
    intro hnone
    cases hnone
  · exact h.trans (by decide)

theorem nodes_decompressRunLength_null :
    let w : JsonValue := .array [JsonValue.null, JsonValue.null, JsonValue.null]
    decompressRunLength (oneRun 3 JsonValue.null) = .ok w ∧
    (w.nodes ≤ (oneRun 3 JsonValue.null).nodes + maxDecompressedSize ↔
      runGrowth (oneRun 3 JsonValue.null) ≤ maxDecompressedSize) :=
  ⟨rfl, nodes_decompressRunLength_le_iff rfl⟩

/-- A run of a hundred thousand arrays of two hundred elements is within the limits. -/
theorem bomb_expanded :
    let d := oneRun 100000 (.array (List.replicate 200 JsonValue.null))
    ∃ w, decompressRunLength d = .ok w ∧ d.nodes + maxDecompressedSize < w.nodes := by
  intro d
  have hvalue : (Doc.array (List.replicate 200 JsonValue.null) : JsonValue).nodes = 201 :=
    Doc.nodes_replicate 200 _
  have hd : d.nodes = 204 := by
    change (oneRun 100000 (.array (List.replicate 200 JsonValue.null))).nodes = 204
    rw [oneRun, Doc.nodes_array, List.map_singleton, List.sum_singleton, Doc.nodes_object]
    simp only [List.map_cons, List.map_nil, List.sum_cons, List.sum_nil, hvalue]
    rfl
  refine ⟨_, decompressRunLength_oneRun (by decide) _, ?_⟩
  rw [hd, Doc.nodes_replicate, hvalue]
  decide

end Growth

end PJS
