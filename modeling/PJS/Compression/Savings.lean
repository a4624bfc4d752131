import PJS.Compression.Analyzer
import PJS.Compression.Frames

/-! What dictionary coding saves on the wire, beside what the analyzer reckons. The reckoning takes
every string at its own length; an escaped string is longer, and then the saving is larger still. -/
namespace PJS

namespace Assoc
variable {κ ν : Type*} [DecidableEq κ]

theorem sum_ite_eq_count (k : κ) (x : ℤ) (l : List κ) :
    (l.map fun j => if j = k then x else 0).sum = (l.count k : ℤ) * x := by
  induction l with
  | nil => simp
  | cons j l ih =>
    rw [List.map_cons, List.sum_cons, ih]
    by_cases hj : j = k
    · subst hj
      rw [if_pos rfl, List.count_cons_self]
      push_cast
      ring
    · rw [if_neg hj, List.count_cons_of_ne hj, zero_add]

/-- A sum over what is looked up, taken entry by entry. -/
theorem sum_lookup {m : List (κ × ν)} (hn : (m.map Prod.fst).Nodup) (g : κ → ν → ℤ) (l : List κ) :
    (l.map fun k => ((m.lookup k).map (g k)).getD 0).sum =
      (m.map fun e => (l.count e.1 : ℤ) * g e.1 e.2).sum := by
  induction m with
  | nil => simp
  | cons e m ih =>
    obtain ⟨k, v⟩ := e
    rw [List.map_cons, List.nodup_cons] at hn
    have hsplit : ∀ j, ((((k, v) :: m).lookup j).map (g j)).getD 0 =
        (if j = k then g k v else 0) + ((m.lookup j).map (g j)).getD 0 := by
      intro j
      by_cases hj : j = k
      · subst hj
        rw [lookup_eq_none_iff_notMem.mpr hn.1]
        simp
      · rw [lookup_cons_ne hj, if_neg hj, zero_add]
    rw [List.map_congr_left fun j _ => hsplit j, List.sum_map_add, sum_ite_eq_count, ih hn.2,
      List.map_cons, List.sum_cons]

end Assoc

/-- The bytes between the quotes of a string on the wire. -/
def escapedSize (s : String) : ℕ := (escapeString s).utf8ByteSize

/-- The bytes of a marker. -/
def markerSize (index : UInt16) : ℕ := 1 + decimalDigits index

/-- No string outside the dictionary starts with the sentinel. -/
def NoStraySentinel (dictionary : AssocMap String UInt16) (v : JsonValue) : Prop :=
  ∀ s ∈ v.strings, s ∉ dictionary.keys → s.toList.head? ≠ some dictSentinel

instance (dictionary : AssocMap String UInt16) (v : JsonValue) : Decidable (NoStraySentinel dictionary v) :=
  inferInstanceAs (Decidable (∀ _ ∈ _, _ → _))

section Substitution
variable (showNumber : JsonNumber → String) (dictionary : AssocMap String UInt16)

/-- The bytes of some strings, each by itself. -/
def escapedSizes (l : List String) : ℕ := (l.map escapedSize).sum

theorem escapedSizes_append (l l' : List String) :
    escapedSizes (l ++ l') = escapedSizes l + escapedSizes l' := by
  unfold escapedSizes
  rw [List.map_append, List.sum_append]

/-- The text of a value and its strings, before and after, differ by the same bytes. -/
theorem size_substitute (v : JsonValue) :
    (toJson showNumber (substituteDictionaryStrings dictionary v)).utf8ByteSize +
        escapedSizes v.strings =
      (toJson showNumber v).utf8ByteSize +
        escapedSizes (v.strings.map (encodeString dictionary)) := by
  induction v using Doc.induction with
  | scalar s =>
    cases s with
    | string s =>
      simp only [substituteDictionaryStrings, toJson, JsonValue.strings, utf8ByteSize_quoteString,
        escapedSizes, List.map_cons, List.map_nil, List.sum_cons, List.sum_nil, escapedSize]
      omega
    | _ => rfl
  | array arr ih =>
    have hitems : ((toJsonItems showNumber (substituteItems dictionary arr)).map
          fun t => t.utf8ByteSize + 1).sum + escapedSizes (JsonValue.itemStrings arr) =
        ((toJsonItems showNumber arr).map fun t => t.utf8ByteSize + 1).sum +
          escapedSizes ((JsonValue.itemStrings arr).map (encodeString dictionary)) ∧
        (toJsonItems showNumber (substituteItems dictionary arr)).length =
          (toJsonItems showNumber arr).length := by
      induction arr with
      | nil => exact ⟨rfl, rfl⟩
      | cons x arr iharr =>
        rw [List.forall_mem_cons] at ih
        obtain ⟨hsum, hlength⟩ := iharr ih.2
        have hx := ih.1
        simp only [substituteItems, toJsonItems, JsonValue.itemStrings, List.map_cons,
          List.sum_cons, List.length_cons, List.map_append, escapedSizes_append, hlength]
        refine ⟨?_, trivial⟩
        omega
    have hbefore := size_commaJoin (toJsonItems showNumber arr)
    have hafter := size_commaJoin (toJsonItems showNumber (substituteItems dictionary arr))
    simp only [substituteDictionaryStrings, toJson, JsonValue.strings, String.utf8ByteSize_append]
    rw [hitems.2] at hafter
    omega
  | object obj ih =>
    have hfields : ((toJsonFields showNumber (substituteFields dictionary obj)).map
          fun t => t.utf8ByteSize + 1).sum + escapedSizes (JsonValue.fieldStrings obj) =
        ((toJsonFields showNumber obj).map fun t => t.utf8ByteSize + 1).sum +
          escapedSizes ((JsonValue.fieldStrings obj).map (encodeString dictionary)) ∧
        (toJsonFields showNumber (substituteFields dictionary obj)).length =
          (toJsonFields showNumber obj).length := by
      induction obj with
      | nil => exact ⟨rfl, rfl⟩
      | cons e obj ihobj =>
        obtain ⟨hsum, hlength⟩ := ihobj fun k v hmem => ih k v (by simp [hmem])
        have hx := ih e.1 e.2 (by simp)
        simp only [substituteFields, toJsonFields, JsonValue.fieldStrings, List.map_cons,
          List.sum_cons, List.length_cons, List.map_append, escapedSizes_append, hlength,
          String.utf8ByteSize_append]
        refine ⟨?_, trivial⟩
        omega
    have hbefore := size_commaJoin (toJsonFields showNumber obj)
    have hafter := size_commaJoin (toJsonFields showNumber (substituteFields dictionary obj))
    simp only [substituteDictionaryStrings, toJson, JsonValue.strings, String.utf8ByteSize_append]
    rw [hfields.2] at hafter
    omega

variable {dictionary}

theorem escapeChar_of_le {c : Char} (h : 32 ≤ c.toNat) (hquote : c ≠ '\x22')
    (hbackslash : c ≠ '\x5c') : escapeChar c = [c] := by
  have hne : ∀ d : Char, d.toNat < 32 → c ≠ d := by
    rintro d hd rfl
    omega
  unfold escapeChar
  rw [if_neg (not_or.mpr ⟨hquote, hbackslash⟩), if_neg (hne _ (by decide)),
    if_neg (hne _ (by decide)), if_neg (hne _ (by decide)), if_neg (hne _ (by decide)),
    if_neg (hne _ (by decide)), if_neg (not_lt.mpr h)]

theorem unescaped_marker (index : UInt16) :
    Unescaped (String.singleton dictSentinel ++ Nat.repr index.toNat) := by
  intro c hc
  rw [String.toList_append, String.toList_singleton, List.mem_append, List.mem_singleton] at hc
  rcases hc with rfl | hc
  · decide
  · rw [Nat.toList_repr] at hc
    have hdigit := Nat.isDigit_of_mem_toDigits (by decide) (by decide) hc
    refine escapeChar_of_le ?_ ?_ ?_
    · simp only [Char.isDigit, Bool.and_eq_true, decide_eq_true_eq] at hdigit
      have hle : 48 ≤ c.val.toNat := UInt32.le_iff_toNat_le.mp hdigit.1
      change 32 ≤ c.val.toNat
      omega
    · rintro rfl
      exact absurd hdigit (by decide)
    · rintro rfl
      exact absurd hdigit (by decide)

/-- A string of the dictionary shrinks to its marker, and any other stays as it is. -/
theorem escapedSize_encodeString {s : String}
    (h : s ∉ dictionary.keys → s.toList.head? ≠ some dictSentinel) :
    (escapedSize s : ℤ) - escapedSize (encodeString dictionary s) =
      ((dictionary.get? s).map fun index => (escapedSize s : ℤ) - markerSize index).getD 0 := by
  unfold encodeString
  cases hget : dictionary.get? s with
  | some index =>
    have hsize : escapedSize (String.singleton dictSentinel ++ Nat.repr index.toNat) =
        markerSize index := by
      unfold escapedSize markerSize decimalDigits
      rw [escapeString_of_unescaped (unescaped_marker index), String.utf8ByteSize_append]
      rfl
    simp only [hsize, Option.map_some, Option.getD_some]
  | none =>
    have hnot : s ∉ dictionary.keys := fun hmem => by
      obtain ⟨index, hindex⟩ := AssocMap.mem_keys_iff.mp hmem
      cases hget.symm.trans hindex
    simp only [if_neg (h hnot), sub_self, Option.map_none, Option.getD_none]

/-- What the strings lose, entry by entry of the dictionary. -/
theorem size_sub_size_substitute {v : JsonValue} (h : NoStraySentinel dictionary v) :
    ((toJson showNumber v).utf8ByteSize : ℤ) -
        (toJson showNumber (substituteDictionaryStrings dictionary v)).utf8ByteSize =
      (dictionary.entries.map fun e =>
        (v.strings.count e.1 : ℤ) * ((escapedSize e.1 : ℤ) - markerSize e.2)).sum := by
  have hsum : ((escapedSizes v.strings : ℕ) : ℤ) -
      escapedSizes (v.strings.map (encodeString dictionary)) =
      (v.strings.map fun s => ((dictionary.get? s).map fun index =>
        (escapedSize s : ℤ) - markerSize index).getD 0).sum := by
    rw [← List.map_congr_left fun s hs => escapedSize_encodeString (h s hs)]
    unfold escapedSizes
    induction v.strings with
    | nil => rfl
    | cons s l ih =>
      simp only [List.map_cons, List.sum_cons, ← ih]
      push_cast
      ring
  have hentries := Assoc.sum_lookup dictionary.nodup
    (fun s index => (escapedSize s : ℤ) - markerSize index) v.strings
  have hsize := size_substitute showNumber dictionary v
  unfold AssocMap.get? at hsum
  rw [hentries] at hsum
  omega

/-- The metadata of a numbered dictionary lists its strings. -/
theorem Indexed.dictionaryMetadata_eq (h : Indexed dictionary) :
    dictionaryMetadata dictionary =
      .array (dictionary.entries.map fun e => JsonValue.string e.1) := by
  unfold dictionaryMetadata
  have hn : (dictionary.entries.map fun e => e.2.toNat).Nodup := by
    rw [h.2]
    exact List.nodup_range
  have hslots : dictionary.entries.foldl (fun slots e => slots.set e.2.toNat (some e.1))
      (List.replicate dictionary.size none) = dictionary.entries.map fun e => some e.1 := by
    have hlength : ∀ (es : List (String × UInt16)) (slots : List (Option String)),
        (es.foldl (fun slots e => slots.set e.2.toNat (some e.1)) slots).length =
          slots.length := by
      intro es
      induction es with
      | nil => exact fun _ => rfl
      | cons e es ih =>
        intro slots
        rw [List.foldl_cons, ih, List.length_set]
    refine List.ext_getElem (by rw [hlength, List.length_replicate, List.length_map]; rfl)
      fun j hj hj' => ?_
    rw [List.length_map] at hj'
    -- the entry at position `j` has index `j`
    have hindex : (dictionary.entries[j]).2.toNat = j := by
      have hget : (dictionary.entries.map fun e => e.2.toNat)[j]? = some j := by
        rw [h.2]
        exact List.getElem?_range hj'
      rw [List.getElem?_map, List.getElem?_eq_getElem hj'] at hget
      exact Option.some.inj hget
    have hwritten := getElem?_foldl_set hn (List.getElem_mem hj')
      (List.replicate dictionary.size none)
      (by rw [List.length_replicate, hindex]; exact hj')
    rw [hindex, List.getElem?_eq_getElem hj] at hwritten
    rw [List.getElem_map]
    exact Option.some.inj hwritten
  rw [hslots]
  simp only [List.map_map]
  rfl

/-- The envelope, and every string with its quotes and one separator. -/
theorem size_metadata (h : Indexed dictionary) (hne : dictionary.size ≠ 0) :
    (toJson showNumber (.object
      (AssocMap.empty.insert "dict" (dictionaryMetadata dictionary)).entries)).utf8ByteSize =
      10 + (dictionary.entries.map fun e => escapedSize e.1 + 3).sum := by
  have hitems : ((toJsonItems showNumber (dictionary.entries.map fun e =>
      JsonValue.string e.1)).map fun t => t.utf8ByteSize + 1).sum =
        (dictionary.entries.map fun e => escapedSize e.1 + 3).sum ∧
      (toJsonItems showNumber (dictionary.entries.map fun e => JsonValue.string e.1)).length =
        dictionary.entries.length := by
    induction dictionary.entries with
    | nil => exact ⟨rfl, rfl⟩
    | cons e es ih =>
      simp only [List.map_cons, toJsonItems, toJson, utf8ByteSize_quoteString, List.sum_cons,
        ih.1, List.length_cons, ih.2]
      exact ⟨rfl, trivial⟩
  have hjoin := size_commaJoin (toJsonItems showNumber (dictionary.entries.map fun e =>
    JsonValue.string e.1))
  have hpos : 0 < dictionary.entries.length := Nat.pos_of_ne_zero hne
  have hdict : (quoteString "dict").utf8ByteSize = 6 := by decide
  rw [hitems.1, hitems.2] at hjoin
  rw [h.dictionaryMetadata_eq]
  change ("\x7b" ++ (quoteString "dict" ++ ":" ++ ("[" ++ commaJoin _ ++ "]")) ++
    "\x7d").utf8ByteSize = _
  simp only [String.utf8ByteSize_append, hdict]
  have hone : ":".utf8ByteSize = 1 ∧ "[".utf8ByteSize = 1 ∧ "]".utf8ByteSize = 1 ∧
      "\x7b".utf8ByteSize = 1 ∧ "\x7d".utf8ByteSize = 1 := by decide
  omega

end Substitution

section Model

/-- What an entry is reckoned to save. -/
def modelledGain (repetitions : AssocMap String UInt32) (e : String × UInt16) : ℤ :=
  (((repetitions.get? e.1).getD 0).toNat : ℤ) * ((e.1.utf8ByteSize : ℤ) - markerSize e.2) -
    (e.1.utf8ByteSize + 3)

variable {repetitions : AssocMap String UInt32}

/-- The reckoned saving is the sum over the entries that are kept, each of which pays off. -/
theorem net_keepCandidates {candidates : List (String × UInt32)}
    {dictionary : AssocMap String UInt16} {net : ℤ} {index : UInt16}
    (hnew : (dictionary.keys ++ candidates.map Prod.fst).Nodup)
    (hcounts : ∀ c ∈ candidates, repetitions.get? c.1 = some c.2) :
    ∃ kept, (keepCandidates candidates dictionary net index).1.entries =
        dictionary.entries ++ kept ∧
      (keepCandidates candidates dictionary net index).2 =
        net + (kept.map (modelledGain repetitions)).sum ∧
      ∀ e ∈ kept, 0 < modelledGain repetitions e := by
  induction candidates generalizing dictionary net index with
  | nil => exact ⟨[], (List.append_nil _).symm, (add_zero _).symm, nofun⟩
  | cons c candidates ih =>
    obtain ⟨s, count⟩ := c
    rw [List.forall_mem_cons] at hcounts
    unfold keepCandidates
    simp only
    split_ifs with hmax hgain
    · exact ⟨[], (List.append_nil _).symm, (add_zero _).symm, nofun⟩
    · have hs : s ∉ dictionary.keys := by
        intro hmem
        exact (List.nodup_append'.mp hnew).2.2 hmem (by simp)
      have hentries := AssocMap.entries_insert_of_notMem hs index
      have hnew' : ((dictionary.insert s index).keys ++ candidates.map Prod.fst).Nodup := by
        unfold AssocMap.keys at hnew ⊢
        rw [hentries]
        simpa using hnew
      have hworth : modelledGain repetitions (s, index) =
          (count.toNat : ℤ) * ((s.utf8ByteSize : ℤ) - (1 + decimalDigits index : ℕ)) -
            (s.utf8ByteSize + 3) := by
        unfold modelledGain
        rw [hcounts.1, Option.getD_some]
        rfl
      obtain ⟨kept, hkept, hnet, hpay⟩ := ih hnew' hcounts.2
      refine ⟨(s, index) :: kept, ?_, ?_, ?_⟩
      · rw [hkept, hentries, List.append_assoc]
        rfl
      · rw [hnet, List.map_cons, List.sum_cons, hworth, add_assoc]
      · rw [List.forall_mem_cons]
        refine ⟨?_, hpay⟩
        rw [hworth]
        exact sub_pos.mpr hgain
    · exact ih (hnew.sublist (by simp)) hcounts.2

/-- The reckoned saving of a dictionary with entries: theirs, less the envelope. -/
theorem net_buildDictionary {config : CompressionConfig} {dictionary : AssocMap String UInt16}
    {net : ℤ} (h : buildDictionary repetitions config = (dictionary, net))
    (hne : dictionary.size ≠ 0) :
    net = (dictionary.entries.map (modelledGain repetitions)).sum - 10 ∧
      ∀ e ∈ dictionary.entries, 0 < modelledGain repetitions e := by
  unfold buildDictionary at h
  simp only [Prod.mk.injEq] at h
  obtain ⟨hdictionary, hnet⟩ := h
  set candidates := (repetitions.entries.filter fun e =>
    e.2 > config.minFrequencyCount && e.1.utf8ByteSize > config.minStringLength).mergeSort
      candidateLe with hcandidates
  have hperm := List.mergeSort_perm (repetitions.entries.filter fun e =>
    e.2 > config.minFrequencyCount && e.1.utf8ByteSize > config.minStringLength) candidateLe
  have hnew : ((AssocMap.empty : AssocMap String UInt16).keys ++
      candidates.map Prod.fst).Nodup := by
    change (candidates.map Prod.fst).Nodup
    rw [hcandidates, (hperm.map Prod.fst).nodup_iff]
    exact repetitions.nodup.sublist (List.filter_sublist.map Prod.fst)
  have hcounts : ∀ c ∈ candidates, repetitions.get? c.1 = some c.2 := fun c hc =>
    AssocMap.get?_eq_some_iff.mpr (List.mem_of_mem_filter (hperm.mem_iff.mp hc))
  obtain ⟨kept, hkept, hsum, hpay⟩ := net_keepCandidates hnew hcounts
  rw [hdictionary] at hkept
  rw [hdictionary, if_neg hne, hsum, zero_add] at hnet
  have hentries : dictionary.entries = kept := hkept
  rw [hentries]
  exact ⟨hnet.symm, hpay⟩

end Model

section Saving
variable (showNumber : JsonNumber → String) {dictionary : AssocMap String UInt16} {net : ℤ}
  {config : CompressionConfig} {v : JsonValue}

/-- What an entry really saves. -/
def measuredGain (v : JsonValue) (e : String × UInt16) : ℤ :=
  (v.strings.count e.1 : ℤ) * ((escapedSize e.1 : ℤ) - markerSize e.2) - (escapedSize e.1 + 3)

theorem sum_measuredGain (v : JsonValue) (entries : List (String × UInt16)) :
    (entries.map (measuredGain v)).sum = (entries.map fun e =>
      (v.strings.count e.1 : ℤ) * ((escapedSize e.1 : ℤ) - markerSize e.2)).sum -
        ((entries.map fun e => escapedSize e.1 + 3).sum : ℕ) := by
  induction entries with
  | nil => rfl
  | cons e entries ih =>
    simp only [List.map_cons, List.sum_cons, ih, measuredGain]
    push_cast
    ring

/-- More occurrences and a longer string save more, where there is anything to save. -/
theorem gain_le {few many short long marker : ℤ} (hfew : 0 ≤ few) (hmany : few ≤ many)
    (hlong : short ≤ long) (hshort : 0 ≤ short) (h : 0 < few * (short - marker) - (short + 3)) :
    few * (short - marker) - (short + 3) ≤ many * (long - marker) - (long + 3) := by
  have hpos : 0 < few * (short - marker) := by omega
  have hone : 0 < few := hfew.lt_of_ne fun hzero => by
    rw [← hzero, zero_mul] at hpos
    exact absurd hpos (lt_irrefl 0)
  have hmarker : 0 < short - marker := (mul_pos_iff_of_pos_left hone).mp hpos
  have hoccurrences : few * (short - marker) ≤ many * (short - marker) :=
    mul_le_mul_of_nonneg_right hmany hmarker.le
  have hescapes : 1 * (long - short) ≤ many * (long - short) :=
    mul_le_mul_of_nonneg_right (by omega) (by omega)
  have hsplit : many * (long - marker) = many * (short - marker) + many * (long - short) := by
    ring
  omega

/-- An entry that pays off saves no less than it is reckoned to save, and no more if its string
needs no escape and its occurrences were counted. -/
theorem modelledGain_le {e : String × UInt16} (h : 0 < modelledGain (stringRepetitions v) e) :
    modelledGain (stringRepetitions v) e ≤ measuredGain v e ∧
      (Unescaped e.1 → v.strings.count e.1 < 2 ^ 32 →
        measuredGain v e = modelledGain (stringRepetitions v) e) := by
  have hcount : (((stringRepetitions v).get? e.1).getD 0).toNat =
      v.strings.count e.1 % 2 ^ 32 := by
    rw [get?_stringRepetitions]
    split_ifs with hmem
    · rw [Option.getD_some, UInt32.toNat_ofNat']
    · rw [List.count_eq_zero_of_not_mem hmem]
      rfl
  have hescaped : (e.1.utf8ByteSize : ℤ) ≤ escapedSize e.1 := by
    exact_mod_cast utf8ByteSize_le_escapeString e.1
  unfold modelledGain measuredGain at *
  rw [hcount] at h ⊢
  constructor
  · refine gain_le (by positivity) ?_ hescaped (by positivity) h
    exact_mod_cast Nat.mod_le _ _
  · intro hplain hfew
    rw [Nat.mod_eq_of_lt hfew]
    unfold escapedSize
    rw [escapeString_of_unescaped hplain]

/-- The measured saving, entry by entry of the dictionary. -/
theorem saving_eq (render : Rendering) (hrender : render.toJson = toJson showNumber)
    (hindexed : Indexed dictionary) (hne : dictionary.size ≠ 0) (hplain : NoStraySentinel dictionary v) :
    ((toJson showNumber v).utf8ByteSize : ℤ) -
        SchemaCompressor.wireSize render (substituteDictionaryStrings dictionary v)
          (AssocMap.empty.insert "dict" (dictionaryMetadata dictionary)) =
      (dictionary.entries.map (measuredGain v)).sum - 10 := by
  have hmetadata := size_metadata showNumber hindexed hne
  have hstrings := size_sub_size_substitute showNumber hplain
  have hsize : (AssocMap.empty.insert "dict" (dictionaryMetadata dictionary)).size = 1 := rfl
  unfold SchemaCompressor.wireSize
  rw [hrender, if_neg (by rw [hsize]; decide), hmetadata, sum_measuredGain, ← hstrings]
  push_cast
  ring

end Saving

section Selection
variable (showNumber : JsonNumber → String) (v : JsonValue)

/-- A dictionary with entries saves at least what it is reckoned to save, and exactly that if none
of its strings needs an escape; so a dictionary that is selected saves what is asked for. -/
theorem dictionary_saves (config : AnalyzerConfig) (render : Rendering)
    (hrender : render.toJson = toJson showNumber) :
    let built := buildDictionary (stringRepetitions v) config.toCompressionConfig
    let saving : ℤ := (toJson showNumber v).utf8ByteSize -
      SchemaCompressor.wireSize render (substituteDictionaryStrings built.1 v)
        (AssocMap.empty.insert "dict" (dictionaryMetadata built.1))
    NoStraySentinel built.1 v →
    (built.1.size ≠ 0 → built.2 ≤ saving ∧
      ((∀ s ∈ built.1.keys, Unescaped s ∧ v.strings.count s < 2 ^ 32) → saving = built.2)) ∧
    ∀ analyzer : SchemaAnalyzer, analyzer.config = config →
      analyzer.stringRepetitions = stringRepetitions v → config.minNetSavings < 2 ^ 63 →
      ∀ dictionary, analyzer.determineStrategy = .ok (.dictionary dictionary) →
        ∀ coder : CompressionConfig, ∃ data,
          (SchemaCompressor.mk (.dictionary dictionary) coder).compress render v = .ok data ∧
            data.compressedSize + config.minNetSavings ≤ (toJson showNumber v).utf8ByteSize := by
  intro built saving hplain
  have hmeasured : built.1.size ≠ 0 → built.2 ≤ saving ∧
      ((∀ s ∈ built.1.keys, Unescaped s ∧ v.strings.count s < 2 ^ 32) → saving = built.2) := by
    intro hne
    have hindexed : Indexed built.1 :=
      indexed_buildDictionary (stringRepetitions v) config.toCompressionConfig
    have hsaving := saving_eq showNumber render hrender hindexed hne hplain
    change saving = _ at hsaving
    obtain ⟨hnet, hpay⟩ := net_buildDictionary (show buildDictionary (stringRepetitions v)
      config.toCompressionConfig = (built.1, built.2) from rfl) hne
    rw [hsaving, hnet]
    constructor
    · refine sub_le_sub_right (List.sum_le_sum fun e he => ?_) 10
      exact (modelledGain_le (hpay e he)).1
    · intro hexact
      refine congrArg (· - 10) (congrArg List.sum (List.map_congr_left fun e he => ?_))
      obtain ⟨hunescaped, hfew⟩ := hexact e.1 (List.mem_map_of_mem he)
      exact (modelledGain_le (hpay e he)).2 hunescaped hfew
  refine ⟨hmeasured, ?_⟩
  rintro analyzer hconfig hcounts hsmall dictionary hselected coder
  obtain ⟨net, hbuild, hne, hnet⟩ := SchemaAnalyzer.dictionary_selected hselected
  rw [hcounts, hconfig] at hbuild
  have hdictionary : built = (dictionary, net) := hbuild
  refine ⟨_, rfl, ?_⟩
  have hle := (hmeasured (by rw [hdictionary]; exact hne)).1
  have hasked : asI64 config.minNetSavings = config.minNetSavings := by
    unfold asI64
    refine Int.bmod_eq_of_le ?_ ?_ <;> omega
  rw [hconfig, hasked] at hnet
  have hsize : saving = ((toJson showNumber v).utf8ByteSize : ℤ) -
      SchemaCompressor.wireSize render (substituteDictionaryStrings dictionary v)
        (AssocMap.empty.insert "dict" (dictionaryMetadata dictionary)) := by
    have hfirst : built.1 = dictionary := congrArg Prod.fst hdictionary
    rw [← hfirst]
  rw [hdictionary] at hle
  change SchemaCompressor.wireSize render (substituteDictionaryStrings dictionary v)
    (AssocMap.empty.insert "dict" (dictionaryMetadata dictionary)) + _ ≤ _
  omega

/-- A rendering that writes every number as a zero. -/
def zeroRendering : Rendering := ⟨fun _ => "0", toJson fun _ => "0", id⟩

/-- One status text, three times. -/
def repeated : JsonValue :=
  .array [JsonValue.string "a text that is sent again",
    JsonValue.string "a text that is sent again", JsonValue.string "a text that is sent again"]

/-- What the analyzer has counted after the three texts. -/
def repeatedAnalyzer : SchemaAnalyzer := ⟨.empty, .empty, stringRepetitions repeated, .default⟩

/-- The dictionary of the three texts pays, and nothing speaks for deltas. -/
theorem determineStrategy_repeated :
    repeatedAnalyzer.determineStrategy =
      .ok (.dictionary (buildDictionary (stringRepetitions repeated) .default).1) := by
  let built := buildDictionary (stringRepetitions repeated) CompressionConfig.default
  have hselected : built.1.size ≠ 0 ∧ asI64 10 ≤ built.2 := by decide +kernel
  have hdelta : ¬ ((0.0 : Float32) ≥ 30.0) := by decide +kernel
  unfold SchemaAnalyzer.determineStrategy
  exact (if_pos hselected).trans (if_neg hdelta)

theorem dictionary_saves_selected :
    let built := buildDictionary (stringRepetitions repeated) CompressionConfig.default
    let size := (toJson (fun _ => "0") repeated).utf8ByteSize
    built.2 = 31 ∧ (size : ℤ) -
      SchemaCompressor.wireSize zeroRendering (substituteDictionaryStrings built.1 repeated)
        (AssocMap.empty.insert "dict" (dictionaryMetadata built.1)) = 31 ∧
    ∃ dictionary data, repeatedAnalyzer.determineStrategy = .ok (.dictionary dictionary) ∧
      (SchemaCompressor.mk (.dictionary dictionary) .default).compress zeroRendering repeated =
        .ok data ∧ data.compressedSize + 10 ≤ size := by
  intro built size
  have hbuilt : built.1.size ≠ 0 ∧ built.2 = 31 := by decide +kernel
  have hplain : NoStraySentinel built.1 repeated := by decide +kernel
  have hexact : ∀ s ∈ built.1.keys, Unescaped s ∧ repeated.strings.count s < 2 ^ 32 := by
    decide +kernel
  have hsaves := dictionary_saves (fun _ => "0") repeated .default zeroRendering rfl hplain
  have hsaving := ((hsaves.1 hbuilt.1).2 hexact).trans hbuilt.2
  have hselected := determineStrategy_repeated
  obtain ⟨data, hdata, hsize⟩ :=
    hsaves.2 repeatedAnalyzer rfl rfl (by decide) _ hselected .default
  exact ⟨hbuilt.2, hsaving, _, data, hselected, hdata, hsize⟩

/-- A dictionary without entries is reckoned to save nothing, but its envelope costs eleven
bytes. -/
theorem empty_dictionary_costs :
    let v := JsonValue.string "ok"
    let built := buildDictionary (stringRepetitions v) CompressionConfig.default
    NoStraySentinel built.1 v ∧
    ¬ built.2 ≤ ((toJson (fun _ => "0") v).utf8ByteSize : ℤ) -
      SchemaCompressor.wireSize zeroRendering (substituteDictionaryStrings built.1 v)
        (AssocMap.empty.insert "dict" (dictionaryMetadata built.1)) := by
  decide +kernel

end Selection

end PJS
