import PJS.Compression.Strategy

/-! Dictionary coding of strings. A marker is the sentinel and an index, a string that starts with
the sentinel gets one more, and every other string stands for itself; so a coded string says what
it is. -/
namespace PJS

def dictSentinel : Char := '\x7f'

/-- Number of decimal digits. -/
def decimalDigits (n : UInt16) : ℕ := (Nat.repr n.toNat).utf8ByteSize

section Encoder

/-- By falling payoff, then by the string itself. -/
def candidateLe (a b : String × UInt32) : Bool :=
  let payoff (c : String × UInt32) := c.2.toNat * c.1.utf8ByteSize
  payoff b < payoff a || payoff a = payoff b && a.1 ≤ b.1

/-- Give indices to the candidates that pay off, as long as there are indices. -/
def keepCandidates : List (String × UInt32) → AssocMap String UInt16 → ℤ → UInt16 →
    AssocMap String UInt16 × ℤ
  | [], dictionary, net, _ => (dictionary, net)
  | (s, count) :: rest, dictionary, net, index =>
    if index = 65535 then (dictionary, net)
    else
      let markerLen := 1 + decimalDigits index
      let gain : ℤ := count.toNat * ((s.utf8ByteSize : ℤ) - markerLen)
      let cost : ℤ := s.utf8ByteSize + 3
      if gain > cost then
        keepCandidates rest (dictionary.insert s index) (net + (gain - cost)) (index + 1)
      else keepCandidates rest dictionary net index

/-- Build the pruned dictionary and its modelled net saving. -/
def buildDictionary (repetitions : AssocMap String UInt32) (config : CompressionConfig) :
    AssocMap String UInt16 × ℤ :=
  let repeated := repetitions.entries.filter fun e =>
    e.2 > config.minFrequencyCount && e.1.utf8ByteSize > config.minStringLength
  let candidates := repeated.mergeSort candidateLe
  let (dictionary, net) := keepCandidates candidates .empty 0 0
  (dictionary, if dictionary.size = 0 then net else net - 10)

/-- The strings of a dictionary in the order of their indices. -/
def dictionaryMetadata (dictionary : AssocMap String UInt16) : JsonValue :=
  let ordered := dictionary.entries.foldl (fun slots e => slots.set e.2.toNat (some e.1))
    (List.replicate dictionary.size none)
  .array (ordered.map fun s => JsonValue.string (s.getD ""))

/-- A string as it is sent. -/
def encodeString (dictionary : AssocMap String UInt16) (s : String) : String :=
  match dictionary.get? s with
  | some index => String.singleton dictSentinel ++ Nat.repr index.toNat
  | none =>
    if s.toList.head? = some dictSentinel then String.singleton dictSentinel ++ s else s

variable (dictionary : AssocMap String UInt16)

mutual

/-- Encode dictionary substitutions as sentinel-escaped string markers. -/
def substituteDictionaryStrings : JsonValue → JsonValue
  | .object obj => .object (substituteFields obj)
  | .array arr => .array (substituteItems arr)
  | .string s => JsonValue.string (encodeString dictionary s)
  | .scalar s => .scalar s

def substituteItems : List JsonValue → List JsonValue
  | [] => []
  | item :: items => substituteDictionaryStrings item :: substituteItems items

def substituteFields : JsonMap → JsonMap
  | [] => []
  | (key, value) :: fields => (key, substituteDictionaryStrings value) :: substituteFields fields

end

end Encoder

section Decoder

/-- `str::parse::<u16>`. -/
def parseU16 (s : String) : Option UInt16 :=
  match parseUsize s with
  | some n => if n < 2 ^ 16 then some (UInt16.ofNat n) else none
  | none => none

variable (debug : String → String) (dictionary : AssocMap UInt16 String)

/-- Decode a single string value's sentinel-marker shape. -/
def decodeDictionaryString (s : String) : DomainResult String :=
  match s.toList with
  | [] => .ok s
  | c :: rest =>
    if c ≠ dictSentinel then .ok s
    else if rest.head? = some dictSentinel then .ok (String.ofList rest)
    else
      match parseU16 (String.ofList rest) with
      | none => .error (.compressionError s!"malformed dictionary marker: {debug s}")
      | some index =>
        match dictionary.get? index with
        | some string => .ok string
        | none => .error (.compressionError
            s!"dictionary marker index {index.toNat} not found in active dictionary")

mutual

/-- Decompress dictionary-encoded strings back from sentinel-escaped markers. -/
def decompressDictionary : JsonValue → DomainResult JsonValue
  | .object obj => do return .object (← decompressDictionaryFields obj)
  | .array arr => do return .array (← decompressDictionaryItems arr)
  | .string s => do return JsonValue.string (← decodeDictionaryString debug dictionary s)
  | .scalar s => .ok (.scalar s)

def decompressDictionaryItems : List JsonValue → DomainResult (List JsonValue)
  | [] => .ok []
  | item :: items => do
    let item ← decompressDictionary item
    return item :: (← decompressDictionaryItems items)

def decompressDictionaryFields : JsonMap → DomainResult JsonMap
  | [] => .ok []
  | (key, value) :: fields => do
    let value ← decompressDictionary value
    return (key, value) :: (← decompressDictionaryFields fields)

end

/-- Note the string at a position, if the position is an index. -/
def readEntry (map : AssocMap UInt16 String) : JsonValue × ℕ → AssocMap UInt16 String
  | (.string s, index) => if index < 2 ^ 16 then map.insert (UInt16.ofNat index) s else map
  | _ => map

/-- Read the strings of a metadata array into a map. -/
def readDictionary (map : AssocMap UInt16 String) (entries : List JsonValue) :
    AssocMap UInt16 String :=
  entries.zipIdx.foldl readEntry map

end Decoder

section RoundTrip

/-- The decoder's map undoes the encoder's. -/
def Inverts (map : AssocMap UInt16 String) (dictionary : AssocMap String UInt16) : Prop :=
  ∀ s index, dictionary.get? s = some index → map.get? index = some s

variable (debug : String → String) {dictionary : AssocMap String UInt16}
  {map : AssocMap UInt16 String}

theorem parseU16_repr (index : UInt16) : parseU16 (Nat.repr index.toNat) = some index := by
  have hlt : index.toNat < 2 ^ 16 := index.toNat_lt
  unfold parseU16
  rw [parseUsize_repr (by omega)]
  simp only [hlt, if_true, UInt16.ofNat_toNat]

theorem head?_repr_ne (n : ℕ) : (Nat.repr n).toList.head? ≠ some dictSentinel := by
  rw [Nat.toList_repr]
  intro h
  have hdigit := Nat.isDigit_of_mem_toDigits (by decide) (by decide) (List.mem_of_mem_head? h)
  exact absurd hdigit (by decide)

/-- A coded string says what it is. -/
theorem decodeDictionaryString_encodeString (h : Inverts map dictionary) (s : String) :
    decodeDictionaryString debug map (encodeString dictionary s) = .ok s := by
  unfold encodeString
  cases hget : dictionary.get? s with
  | some index =>
    have hlist : (String.singleton dictSentinel ++ Nat.repr index.toNat).toList =
        dictSentinel :: (Nat.repr index.toNat).toList := by simp
    unfold decodeDictionaryString
    simp only [hlist, ne_eq, not_true, if_false, head?_repr_ne, String.ofList_toList,
      parseU16_repr, h s index hget]
  | none =>
    simp only
    split_ifs with hhead
    · have hlist : (String.singleton dictSentinel ++ s).toList = dictSentinel :: s.toList := by simp
      unfold decodeDictionaryString
      simp only [hlist, ne_eq, not_true, if_false, hhead, if_true, String.ofList_toList]
    · unfold decodeDictionaryString
      cases hs : s.toList with
      | nil => rfl
      | cons c rest =>
        rw [hs, List.head?_cons, Option.some.injEq] at hhead
        simp only [ne_eq, hhead, not_false_eq_true, if_true]

theorem decompressDictionary_substitute (h : Inverts map dictionary) (v : JsonValue) :
    decompressDictionary debug map (substituteDictionaryStrings dictionary v) = .ok v := by
  induction v using Doc.induction with
  | scalar s =>
    cases s with
    | string s =>
      rw [substituteDictionaryStrings, decompressDictionary,
        decodeDictionaryString_encodeString debug h]
      rfl
    | _ => rfl
  | array arr ih =>
    have hitems : decompressDictionaryItems debug map (substituteItems dictionary arr) =
        .ok arr := by
      induction arr with
      | nil => rfl
      | cons x arr iharr =>
        rw [List.forall_mem_cons] at ih
        rw [substituteItems, decompressDictionaryItems, ih.1, iharr ih.2]
        rfl
    rw [substituteDictionaryStrings, decompressDictionary, hitems]
    rfl
  | object obj ih =>
    have hfields :
        decompressDictionaryFields debug map (substituteFields dictionary obj) = .ok obj := by
      induction obj with
      | nil => rfl
      | cons e obj ihobj =>
        rw [substituteFields, decompressDictionaryFields, ih e.1 e.2 (by simp),
          ihobj fun k v hmem => ih k v (by simp [hmem])]
        rfl
    rw [substituteDictionaryStrings, decompressDictionary, hfields]
    rfl

end RoundTrip

section Indices

/-- The strings have the first indices, in the order in which they were added. -/
def Indexed (dictionary : AssocMap String UInt16) : Prop :=
  dictionary.size ≤ 65535 ∧
    dictionary.entries.map (fun e => e.2.toNat) = List.range dictionary.size

theorem Indexed.insert {dictionary : AssocMap String UInt16} (h : Indexed dictionary) {s : String}
    (hs : s ∉ dictionary.keys) {index : UInt16} (hindex : index.toNat = dictionary.size)
    (hmax : index ≠ 65535) : Indexed (dictionary.insert s index) := by
  have hentries := AssocMap.entries_insert_of_notMem hs index
  have hsize : (dictionary.insert s index).size = dictionary.size + 1 := by
    unfold AssocMap.size
    rw [hentries, List.length_append]
    rfl
  have hlt : index.toNat ≠ 65535 := fun heq => hmax (UInt16.toNat_inj.mp heq)
  refine ⟨?_, ?_⟩
  · have hle := h.1
    omega
  · rw [hsize, hentries, List.map_append, h.2, List.range_succ, ← hindex]
    rfl

theorem indexed_keepCandidates {candidates : List (String × UInt32)}
    {dictionary : AssocMap String UInt16} {net : ℤ} {index : UInt16} (h : Indexed dictionary)
    (hindex : index.toNat = dictionary.size)
    (hnew : (dictionary.keys ++ candidates.map Prod.fst).Nodup) :
    Indexed (keepCandidates candidates dictionary net index).1 := by
  induction candidates generalizing dictionary net index with
  | nil => exact h
  | cons c candidates ih =>
    obtain ⟨s, count⟩ := c
    unfold keepCandidates
    simp only
    split_ifs with hmax hgain
    · exact h
    · have hs : s ∉ dictionary.keys := by
        intro hmem
        exact (List.nodup_append'.mp hnew).2.2 hmem (by simp)
      have hentries := AssocMap.entries_insert_of_notMem hs index
      refine ih (h.insert hs hindex hmax) ?_ ?_
      · have hlt : index.toNat < 65535 := by
          have hle := h.1
          have hne : index.toNat ≠ 65535 := fun heq => hmax (UInt16.toNat_inj.mp heq)
          omega
        unfold AssocMap.size at hindex ⊢
        rw [hentries, List.length_append, ← hindex, UInt16.toNat_add]
        exact Nat.mod_eq_of_lt (by change index.toNat + 1 < 65536; omega)
      · unfold AssocMap.keys at hnew ⊢
        rw [hentries]
        simpa using hnew
    · refine ih h hindex (hnew.sublist ?_)
      simp

/-- The strings of a dictionary are numbered from zero. -/
theorem indexed_buildDictionary (repetitions : AssocMap String UInt32)
    (config : CompressionConfig) : Indexed (buildDictionary repetitions config).1 := by
  refine indexed_keepCandidates ⟨Nat.zero_le _, rfl⟩ rfl ?_
  change ((List.mergeSort _ candidateLe).map Prod.fst).Nodup
  rw [((List.mergeSort_perm _ candidateLe).map Prod.fst).nodup_iff]
  exact repetitions.nodup.sublist (List.filter_sublist.map Prod.fst)

theorem getElem?_foldl_set_of_ne {es : List (String × UInt16)} {j : ℕ}
    (h : ∀ e ∈ es, e.2.toNat ≠ j) (slots : List (Option String)) :
    (es.foldl (fun slots e => slots.set e.2.toNat (some e.1)) slots)[j]? = slots[j]? := by
  induction es generalizing slots with
  | nil => rfl
  | cons e es ih =>
    rw [List.forall_mem_cons] at h
    rw [List.foldl_cons, ih h.2, List.getElem?_set_ne h.1]

/-- A slot that is written once holds what was written. -/
theorem getElem?_foldl_set {es : List (String × UInt16)}
    (hn : (es.map fun e => e.2.toNat).Nodup) {e : String × UInt16} (he : e ∈ es)
    (slots : List (Option String)) (hlt : e.2.toNat < slots.length) :
    (es.foldl (fun slots e => slots.set e.2.toNat (some e.1)) slots)[e.2.toNat]? =
      some (some e.1) := by
  induction es generalizing slots with
  | nil => cases he
  | cons d es ih =>
    rw [List.map_cons, List.nodup_cons] at hn
    rw [List.foldl_cons]
    rcases List.mem_cons.mp he with rfl | he
    · rw [getElem?_foldl_set_of_ne, List.getElem?_set_self hlt]
      intro d hd heq
      exact hn.1 (List.mem_map.mpr ⟨d, hd, heq⟩)
    · exact ih hn.2 he _ (by rwa [List.length_set])

/-- The indices of a dictionary are those below its size, each of them once. The order of the
entries does not matter. -/
def Numbered (dictionary : AssocMap String UInt16) : Prop :=
  (dictionary.entries.map fun e => e.2.toNat).Perm (List.range dictionary.size)

theorem Indexed.numbered {dictionary : AssocMap String UInt16} (h : Indexed dictionary) :
    Numbered dictionary := by
  unfold Numbered
  rw [h.2]

theorem Numbered.nodup {dictionary : AssocMap String UInt16} (h : Numbered dictionary) :
    (dictionary.entries.map fun e => e.2.toNat).Nodup :=
  h.nodup_iff.mpr List.nodup_range

theorem Numbered.lt {dictionary : AssocMap String UInt16} (h : Numbered dictionary) {s : String}
    {index : UInt16} (hs : dictionary.get? s = some index) : index.toNat < dictionary.size := by
  have hmem : (s, index) ∈ dictionary.entries := Assoc.mem_of_lookup hs
  rw [← List.mem_range, ← h.mem_iff]
  exact List.mem_map.mpr ⟨_, hmem, rfl⟩

/-- Position `i` of the metadata holds the string with index `i`. -/
theorem Numbered.metadata {dictionary : AssocMap String UInt16} (h : Numbered dictionary)
    {s : String} {index : UInt16} (hs : dictionary.get? s = some index) :
    ∃ entries, dictionaryMetadata dictionary = .array entries ∧
      entries[index.toNat]? = some (JsonValue.string s) := by
  have hmem : (s, index) ∈ dictionary.entries := Assoc.mem_of_lookup hs
  refine ⟨_, rfl, ?_⟩
  have hslot := getElem?_foldl_set h.nodup hmem (List.replicate dictionary.size none)
    (by rw [List.length_replicate]; exact h.lt hs)
  rw [List.getElem?_map, hslot]
  rfl

theorem get?_readEntry_of_ne {index : UInt16} {e : JsonValue × ℕ} (h : index.toNat ≠ e.2)
    (map : AssocMap UInt16 String) : (readEntry map e).get? index = map.get? index := by
  unfold readEntry
  split
  · rename_i s n
    split_ifs with hn
    · have hne : index ≠ UInt16.ofNat n := by
        rintro rfl
        exact h (UInt16.toNat_ofNat_of_lt' hn)
      rw [AssocMap.get?_insert, if_neg hne]
    · rfl
  · rfl

/-- Reading on does not touch the indices before. -/
theorem get?_foldl_readEntry_of_lt (entries : List JsonValue) {k : ℕ} {index : UInt16}
    (h : index.toNat < k) (map : AssocMap UInt16 String) :
    ((entries.zipIdx k).foldl readEntry map).get? index = map.get? index := by
  induction entries generalizing k map with
  | nil => rfl
  | cons x entries ih =>
    rw [List.zipIdx_cons, List.foldl_cons, ih (Nat.lt_succ_of_lt h),
      get?_readEntry_of_ne (by simpa using h.ne)]

theorem get?_foldl_readEntry {entries : List JsonValue} {k : ℕ} {index : UInt16} {s : String}
    (hk : k ≤ index.toNat) (h : entries[index.toNat - k]? = some (JsonValue.string s))
    (map : AssocMap UInt16 String) :
    ((entries.zipIdx k).foldl readEntry map).get? index = some s := by
  induction entries generalizing k map with
  | nil => cases h
  | cons x entries ih =>
    rw [List.zipIdx_cons, List.foldl_cons]
    by_cases heq : index.toNat = k
    · rw [heq, Nat.sub_self, List.getElem?_cons_zero, Option.some.injEq] at h
      have hlt : k < 2 ^ 16 := heq ▸ index.toNat_lt
      have hindex : UInt16.ofNat k = index := by rw [← heq, UInt16.ofNat_toNat]
      rw [get?_foldl_readEntry_of_lt entries (by omega), h]
      simp only [readEntry, hlt, if_true, hindex, AssocMap.get?_insert_self]
    · obtain ⟨j, hj⟩ := Nat.exists_eq_add_of_lt (lt_of_le_of_ne hk (Ne.symm heq))
      refine ih (by omega) ?_ _
      rw [show index.toNat - k = j + 1 by omega, List.getElem?_cons_succ] at h
      rwa [show index.toNat - (k + 1) = j by omega]

/-- What is read from the metadata of a dictionary undoes it. -/
theorem Numbered.inverts {dictionary : AssocMap String UInt16} (h : Numbered dictionary)
    {entries : List JsonValue} (hm : dictionaryMetadata dictionary = .array entries)
    (map : AssocMap UInt16 String) : Inverts (readDictionary map entries) dictionary := by
  intro s index hs
  obtain ⟨entries', hm', hentry⟩ := h.metadata hs
  cases hm.symm.trans hm'
  exact get?_foldl_readEntry (Nat.zero_le _) (by rwa [Nat.sub_zero]) map

end Indices

end PJS
