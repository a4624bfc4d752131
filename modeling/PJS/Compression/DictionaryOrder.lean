import PJS.Compression.Frames

/-! What a dictionary depends on. The candidates are sorted by payoff and then by the string, so
that no two of them tie, and the order in which the repetitions are read is forgotten. -/
namespace PJS

section Order

theorem candidateLe_iff {a b : String × UInt32} : candidateLe a b = true ↔
    b.2.toNat * b.1.utf8ByteSize < a.2.toNat * a.1.utf8ByteSize ∨
      a.2.toNat * a.1.utf8ByteSize = b.2.toNat * b.1.utf8ByteSize ∧ a.1 ≤ b.1 := by
  simp [candidateLe]

theorem candidateLe_trans (a b c : String × UInt32) (hab : candidateLe a b = true)
    (hbc : candidateLe b c = true) : candidateLe a c = true := by
  rw [candidateLe_iff] at hab hbc ⊢
  rcases hab with hab | ⟨hab, hle⟩
  · rcases hbc with hbc | ⟨hbc, -⟩
    · exact Or.inl (hbc.trans hab)
    · exact Or.inl (hbc ▸ hab)
  · rcases hbc with hbc | ⟨hbc, hle'⟩
    · exact Or.inl (hab ▸ hbc)
    · exact Or.inr ⟨hab.trans hbc, hle.trans hle'⟩

theorem candidateLe_total (a b : String × UInt32) :
    (candidateLe a b || candidateLe b a) = true := by
  rw [Bool.or_eq_true, candidateLe_iff, candidateLe_iff]
  rcases lt_trichotomy (a.2.toNat * a.1.utf8ByteSize) (b.2.toNat * b.1.utf8ByteSize) with
    hlt | heq | hgt
  · exact Or.inr (Or.inl hlt)
  · rcases le_total a.1 b.1 with hle | hle
    · exact Or.inl (Or.inr ⟨heq, hle⟩)
    · exact Or.inr (Or.inr ⟨heq.symm, hle⟩)
  · exact Or.inl (Or.inl hgt)

/-- Two candidates tie only when they have one string. -/
theorem candidateLe_antisymm {a b : String × UInt32} (hab : candidateLe a b = true)
    (hba : candidateLe b a = true) : a.1 = b.1 := by
  rw [candidateLe_iff] at hab hba
  rcases hab with hab | ⟨heq, hle⟩
  · rcases hba with hba | ⟨heq, -⟩
    · exact absurd hba hab.asymm
    · exact absurd heq hab.ne
  · rcases hba with hba | ⟨-, hle'⟩
    · exact absurd heq hba.ne
    · exact le_antisymm hle hle'

/-- Sorting forgets the order in which distinct strings came. -/
theorem mergeSort_candidates_eq {l l' : List (String × UInt32)} (hp : l'.Perm l)
    (hn : (l.map Prod.fst).Nodup) : l'.mergeSort candidateLe = l.mergeSort candidateLe := by
  have hsorted : ∀ l, (List.mergeSort l candidateLe).Pairwise fun a b => candidateLe a b = true :=
    List.pairwise_mergeSort candidateLe_trans candidateLe_total
  have hperm : (l'.mergeSort candidateLe).Perm (l.mergeSort candidateLe) :=
    (List.mergeSort_perm l' candidateLe).trans (hp.trans (List.mergeSort_perm l candidateLe).symm)
  refine List.Perm.eq_of_pairwise ?_ (hsorted l') (hsorted l) hperm
  intro a b ha hb hab hba
  have ha' : a ∈ l := hp.subset (List.mem_mergeSort.mp ha)
  have hb' : b ∈ l := List.mem_mergeSort.mp hb
  have hfst := candidateLe_antisymm hab hba
  have hsnd : some a.2 = some b.2 := by
    rw [← Assoc.lookup_of_mem hn ha', hfst, Assoc.lookup_of_mem hn hb']
  exact Prod.ext hfst (Option.some.inj hsnd)

/-- The dictionary does not depend on the order in which the repetitions are read. -/
theorem buildDictionary_perm {repetitions repetitions' : AssocMap String UInt32}
    (hp : repetitions'.entries.Perm repetitions.entries) (config : CompressionConfig) :
    buildDictionary repetitions' config = buildDictionary repetitions config := by
  have hsort := mergeSort_candidates_eq (hp.filter fun e =>
      e.2 > config.minFrequencyCount && e.1.utf8ByteSize > config.minStringLength)
    (repetitions.nodup.sublist (List.filter_sublist.map Prod.fst))
  unfold buildDictionary
  simp only [hsort]

end Order

section Inverse

variable {dictionary dictionary' : AssocMap String UInt16}

theorem Numbered.of_perm (h : Numbered dictionary)
    (hp : dictionary'.entries.Perm dictionary.entries) : Numbered dictionary' := by
  have hsize : dictionary'.size = dictionary.size := hp.length_eq
  unfold Numbered
  rw [hsize]
  exact (hp.map _).trans h

/-- There are no gaps below the size. -/
theorem Numbered.exists_string (h : Numbered dictionary) {index : UInt16}
    (hlt : index.toNat < dictionary.size) : ∃ s, dictionary.get? s = some index := by
  rw [← List.mem_range, ← h.mem_iff, List.mem_map] at hlt
  obtain ⟨⟨s, index'⟩, hmem, heq⟩ := hlt
  obtain rfl : index' = index := UInt16.toNat_inj.mp heq
  exact ⟨s, Assoc.lookup_of_mem dictionary.nodup hmem⟩

theorem get?_perm (hp : dictionary'.entries.Perm dictionary.entries) (s : String) :
    dictionary'.get? s = dictionary.get? s :=
  Assoc.lookup_perm hp dictionary'.nodup s

theorem length_foldl_set (es : List (String × UInt16)) (slots : List (Option String)) :
    (es.foldl (fun slots e => slots.set e.2.toNat (some e.1)) slots).length = slots.length := by
  induction es generalizing slots with
  | nil => rfl
  | cons e es ih => rw [List.foldl_cons, ih, List.length_set]

/-- The strings of a numbered dictionary are those of its metadata, at their indices. -/
theorem Numbered.metadata_iff (h : Numbered dictionary) :
    ∃ entries, dictionaryMetadata dictionary = .array entries ∧
      entries.length = dictionary.size ∧
      ∀ s (index : UInt16), entries[index.toNat]? = some (JsonValue.string s) ↔
        dictionary.get? s = some index := by
  have hlength : ∀ {entries}, dictionaryMetadata dictionary = .array entries →
      entries.length = dictionary.size := by
    intro entries hentries
    cases hentries
    rw [List.length_map, length_foldl_set, List.length_replicate]
  refine ⟨_, rfl, hlength rfl, fun s index => ⟨fun hentry => ?_, fun hs => ?_⟩⟩
  · have hlt : index.toNat < dictionary.size := by
      rw [← hlength rfl]
      exact (List.getElem?_eq_some_iff.mp hentry).1
    obtain ⟨s', hs'⟩ := h.exists_string hlt
    obtain ⟨entries, hentries, hentry'⟩ := h.metadata hs'
    cases hentries
    rw [hentry'] at hentry
    cases hentry
    exact hs'
  · obtain ⟨entries, hentries, hentry⟩ := h.metadata hs
    cases hentries
    exact hentry

/-- An index past the end of the metadata is not touched. -/
theorem get?_foldl_readEntry_of_ge (entries : List JsonValue) {k : ℕ} {index : UInt16}
    (h : k + entries.length ≤ index.toNat) (map : AssocMap UInt16 String) :
    ((entries.zipIdx k).foldl readEntry map).get? index = map.get? index := by
  induction entries generalizing k map with
  | nil => rfl
  | cons x entries ih =>
    rw [List.length_cons] at h
    rw [List.zipIdx_cons, List.foldl_cons, ih (by omega), get?_readEntry_of_ne (by simp; omega)]

/-- What is read from the metadata of a dictionary is its inverse, and nothing else. -/
theorem Numbered.get?_readDictionary (h : Numbered dictionary) {entries : List JsonValue}
    (hm : dictionaryMetadata dictionary = .array entries) (index : UInt16) (s : String) :
    (readDictionary .empty entries).get? index = some s ↔ dictionary.get? s = some index := by
  constructor
  · intro hget
    by_cases hlt : index.toNat < dictionary.size
    · obtain ⟨s', hs'⟩ := h.exists_string hlt
      have hinverse := h.inverts hm .empty s' index hs'
      rw [hget, Option.some.injEq] at hinverse
      rwa [hinverse]
    · obtain ⟨entries', hm', hlength, -⟩ := h.metadata_iff
      cases hm.symm.trans hm'
      have hnone : (readDictionary .empty entries).get? index = none :=
        get?_foldl_readEntry_of_ge entries (by omega) .empty
      rw [hnone] at hget
      cases hget
  · exact h.inverts hm .empty s index

namespace StreamingCompressor

/-- Only the entry `dict` says something about the strings. -/
theorem fst_foldl_readMetadata_of_notMem {es : List (String × JsonValue)}
    (h : "dict" ∉ es.map Prod.fst) (maps : AssocMap UInt16 String × AssocMap String Float) :
    (es.foldl readMetadata maps).1 = maps.1 := by
  induction es generalizing maps with
  | nil => rfl
  | cons e es ih =>
    obtain ⟨key, value⟩ := e
    rw [List.map_cons, List.mem_cons, not_or] at h
    rw [List.foldl_cons, ih h.2]
    unfold readMetadata
    simp only [if_neg (Ne.symm h.1)]
    split <;> rfl

theorem fst_foldl_readMetadata {es : List (String × JsonValue)} (hn : (es.map Prod.fst).Nodup)
    {entries : List JsonValue} (h : es.lookup "dict" = some (.array entries))
    (maps : AssocMap UInt16 String × AssocMap String Float) :
    (es.foldl readMetadata maps).1 = readDictionary maps.1 entries := by
  obtain ⟨before, after, rfl, hbefore⟩ := List.lookup_eq_some_iff.mp h
  rw [List.map_append, List.map_cons, List.nodup_append'] at hn
  have hafter : "dict" ∉ after.map Prod.fst := (List.nodup_cons.mp hn.2.1).1
  have hbefore' : "dict" ∉ before.map Prod.fst := fun hmem =>
    hn.2.2 hmem List.mem_cons_self
  have hread : ∀ maps, (readMetadata maps ("dict", .array entries)).1 =
      readDictionary maps.1 entries := fun _ => rfl
  rw [List.foldl_append, List.foldl_cons, fst_foldl_readMetadata_of_notMem hafter, hread,
    fst_foldl_readMetadata_of_notMem hbefore']

/-- A map of repetitions has one dictionary, in whatever order it is read. Its strings have the
indices from zero, its metadata lists them at their indices, and whoever reads the metadata gets
the inverse of the dictionary. -/
theorem buildDictionary_inverse (repetitions : AssocMap String UInt32)
    (config : CompressionConfig) :
    (∀ repetitions' : AssocMap String UInt32,
      repetitions'.entries.Perm repetitions.entries →
        buildDictionary repetitions' config = buildDictionary repetitions config) ∧
    let dictionary := (buildDictionary repetitions config).1
    dictionary.size ≤ 65535 ∧
    (dictionary.entries.map fun e => e.2.toNat).Perm (List.range dictionary.size) ∧
    ∀ dictionary' : AssocMap String UInt16, dictionary'.entries.Perm dictionary.entries →
      ∃ entries, dictionaryMetadata dictionary' = .array entries ∧
        entries.length = dictionary.size ∧
        (∀ s (index : UInt16), entries[index.toNat]? = some (JsonValue.string s) ↔
          dictionary.get? s = some index) ∧
        ∀ data : CompressedData,
          data.compressionMetadata.get? "dict" = some (dictionaryMetadata dictionary') →
          ∀ index s, (createDecompressionMetadata data).dictionaryMap.get? index = some s ↔
            dictionary.get? s = some index := by
  refine ⟨fun _ hp => buildDictionary_perm hp config, ?_⟩
  intro dictionary
  have hindexed : Indexed dictionary := indexed_buildDictionary repetitions config
  refine ⟨hindexed.1, hindexed.numbered, fun dictionary' hp => ?_⟩
  have hnumbered : Numbered dictionary' := hindexed.numbered.of_perm hp
  have hsize : dictionary'.size = dictionary.size := hp.length_eq
  obtain ⟨entries, hm, hlength, hentries⟩ := hnumbered.metadata_iff
  refine ⟨entries, hm, hlength.trans hsize, fun s index => ?_, fun data hdata index s => ?_⟩
  · rw [hentries, get?_perm hp]
  · have hmap : (createDecompressionMetadata data).dictionaryMap = readDictionary .empty entries :=
      fst_foldl_readMetadata data.compressionMetadata.nodup (hm ▸ hdata) (.empty, .empty)
    rw [hmap, hnumbered.get?_readDictionary hm, get?_perm hp]

end StreamingCompressor

end Inverse

end PJS
