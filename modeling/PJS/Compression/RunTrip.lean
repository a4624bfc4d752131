import PJS.Compression.RunLength

/-! How far the decoder undoes the encoder. -/
namespace PJS

section Raw

/-- No element of an array passes for a run, wherever the decoder looks. -/
inductive Intact : JsonValue → Prop
  | scalar (s : JsonScalar) : Intact (.scalar s)
  | object {obj : JsonMap} (h : ∀ k v, (k, v) ∈ obj → Intact v) : Intact (.object obj)
  | array {arr : List JsonValue} (hruns : ∀ x ∈ arr, run? x = none) (h : ∀ x ∈ arr, Intact x) :
    Intact (.array arr)

theorem lookup_of_run? {x value : JsonValue} {count : ℕ} (h : run? x = some (value, count)) :
    ∃ obj, x = .object obj ∧ obj.lookup "rle_value" = some value := by
  unfold run? at h
  split at h
  · rename_i obj
    split at h
    · rename_i v c hv hc
      obtain ⟨n, -, hn⟩ := Option.map_eq_some_iff.mp h
      cases hn
      exact ⟨obj, rfl, hv⟩
    · cases h
  · cases h

/-- The value of a run is smaller than the run. -/
theorem canon_ne_of_run? {x value : JsonValue} {count : ℕ} (h : run? x = some (value, count)) :
    value.canon ≠ x.canon := by
  obtain ⟨obj, rfl, hlookup⟩ := lookup_of_run? h
  intro heq
  have hnodes := congrArg Doc.nodes heq
  rw [JsonValue.nodes_canon, JsonValue.nodes_canon] at hnodes
  have hlt := Doc.nodes_lt_of_mem (Assoc.mem_of_lookup hlookup)
  omega

theorem map_canon_expandItem (x : JsonValue) : (expandItem x).map JsonValue.canon =
    match run? x with
    | some (value, count) => List.replicate count value.canon
    | none => [(expand x).canon] := by
  unfold expandItem
  cases run? x with
  | none => rfl
  | some r => exact List.map_replicate

theorem same_object_iff {f : JsonValue → JsonValue} {obj : JsonMap} :
    JsonValue.Same (.object (obj.map fun e => (e.1, f e.2))) (.object obj) ↔
      ∀ k v, (k, v) ∈ obj → (f v).Same v := by
  unfold JsonValue.Same
  rw [JsonValue.canon_object, JsonValue.canon_object, Doc.object.injEq, List.map_map,
    List.map_inj_left]
  constructor
  · intro h k v hmem
    exact congrArg Prod.snd (h (k, v) hmem)
  · intro h e hmem
    exact congrArg (Prod.mk e.1) (h e.1 e.2 hmem)

/-- Arrays that are put together from segments that do not grow are compared segment by segment. -/
theorem same_array_iff {τ : Type} {ts : List τ} {arr : List JsonValue} {a b : τ → List JsonValue}
    (harr : ts.flatMap a = arr.map JsonValue.canon)
    (h : ∀ t ∈ ts, a t ≠ [] ∧ Runs.Shrinks (a t) ((b t).map JsonValue.canon)) :
    JsonValue.Same (.array (ts.flatMap b)) (.array arr) ↔
      ∀ t ∈ ts, a t = (b t).map JsonValue.canon := by
  unfold JsonValue.Same
  rw [JsonValue.canon_array, JsonValue.canon_array, Doc.array.injEq, List.map_flatMap, ← harr]
  constructor
  · intro heq
    exact Runs.eq_of_flatMap_eq h heq.symm
  · intro hall
    rw [List.flatMap_def, List.flatMap_def, List.map_congr_left hall]

/-- An array whose elements were replaced by `g` and then decoded one by one. -/
theorem same_items_iff {g : JsonValue → JsonValue} {arr : List JsonValue}
    (hg : ∀ x ∈ arr, ∀ value count, run? (g x) = some (value, count) → value.canon ≠ x.canon) :
    JsonValue.Same (.array (arr.flatMap fun x => expandItem (g x))) (.array arr) ↔
      ∀ x ∈ arr, run? (g x) = none ∧ (expand (g x)).Same x := by
  have hshrinks : ∀ x ∈ arr, [JsonValue.canon x] ≠ [] ∧
      Runs.Shrinks [JsonValue.canon x] ((expandItem (g x)).map JsonValue.canon) := by
    intro x hx
    refine ⟨by simp, ?_⟩
    rw [map_canon_expandItem]
    cases hrun : run? (g x) with
    | none => exact Or.inl (le_refl 1)
    | some r => exact Or.inr ⟨_, _, rfl, by simpa using hg x hx _ _ hrun⟩
  rw [same_array_iff List.map_eq_flatMap.symm hshrinks]
  refine forall₂_congr fun x hx => ?_
  rw [map_canon_expandItem]
  cases hrun : run? (g x) with
  | none =>
    rw [List.singleton_inj]
    exact ⟨fun h => ⟨rfl, h.symm⟩, fun h => h.2.symm⟩
  | some r =>
    refine iff_of_false (fun h => ?_) (fun h => by cases h.1)
    change [x.canon] = List.replicate r.2 r.1.canon at h
    have hmem : x.canon ∈ List.replicate r.2 r.1.canon := h ▸ List.mem_singleton_self _
    exact hg x hx _ _ hrun (List.eq_of_mem_replicate hmem).symm

/-- The decoder leaves alone exactly what is intact. -/
theorem expand_same_iff (v : JsonValue) : (expand v).Same v ↔ Intact v := by
  induction v using Doc.induction with
  | scalar s => exact iff_of_true rfl (.scalar s)
  | array arr ih =>
    rw [expand_array]
    refine (same_items_iff (g := id) fun x _ _ _ hrun => canon_ne_of_run? hrun).trans ?_
    constructor
    · exact fun h => .array (fun x hx => (h x hx).1) fun x hx => (ih x hx).mp (h x hx).2
    · intro h x hx
      cases h with
      | array hruns h => exact ⟨hruns x hx, (ih x hx).mpr (h x hx)⟩
  | object obj ih =>
    rw [expand_object, same_object_iff]
    constructor
    · exact fun h => .object fun k v hmem => (ih k v hmem).mp (h k v hmem)
    · intro h k v hmem
      cases h with
      | object h => exact (ih k v hmem).mpr (h k v hmem)

end Raw

section Encoded
variable (config : CompressionConfig)

theorem asU64_applyRunLengthEncoding (v : JsonValue) :
    (applyRunLengthEncoding config v).asU64 = v.asU64 := by
  cases v with
  | scalar s => rfl
  | object obj => rfl
  | array arr =>
    unfold applyRunLengthEncoding
    split_ifs <;> rfl

theorem lookup_applyRunLengthEncoding (key : String) (obj : JsonMap) :
    (obj.map fun e => (e.1, applyRunLengthEncoding config e.2)).lookup key =
      (obj.lookup key).map (applyRunLengthEncoding config) :=
  Assoc.lookup_map (fun _ v => applyRunLengthEncoding config v) key obj

/-- The encoder keeps the keys of an object, so what passes for a run still does. -/
theorem run?_applyRunLengthEncoding (x : JsonValue) :
    run? (applyRunLengthEncoding config x) =
      (run? x).map fun r => (applyRunLengthEncoding config r.1, r.2) := by
  cases x with
  | scalar s => rfl
  | array arr =>
    unfold applyRunLengthEncoding
    split_ifs <;> rfl
  | object obj =>
    rw [applyRunLengthEncoding_object]
    simp only [run?, lookup_applyRunLengthEncoding]
    cases obj.lookup "rle_value" with
    | none => rfl
    | some value =>
      cases obj.lookup "rle_count" with
      | none => rfl
      | some count =>
        simp only [Option.map_some, asU64_applyRunLengthEncoding, Option.map_map]
        rfl

theorem wellMarked_applyRunLengthEncoding (x : JsonValue) :
    wellMarked (applyRunLengthEncoding config x) = wellMarked x := by
  cases x with
  | scalar s => rfl
  | array arr =>
    unfold applyRunLengthEncoding
    split_ifs <;> rfl
  | object obj =>
    rw [applyRunLengthEncoding_object]
    simp only [wellMarked, lookup_applyRunLengthEncoding]
    cases obj.lookup "rle_value" with
    | none => cases obj.lookup "rle_count" <;> rfl
    | some value =>
      cases obj.lookup "rle_count" with
      | none => rfl
      | some count => simp only [Option.map_some, asU64_applyRunLengthEncoding]

/-- The code of a value is not the object that holds the value: if it were, the same would be true
one level down. -/
theorem canon_encoded_ne {obj : JsonMap} {value : JsonValue}
    (h : obj.lookup "rle_value" = some value) :
    (applyRunLengthEncoding config value).canon ≠ JsonValue.canon (.object obj) := by
  induction value using Doc.induction generalizing obj with
  | scalar s =>
    rw [JsonValue.canon_object]
    intro heq
    cases heq
  | array arr _ =>
    rw [JsonValue.canon_object]
    intro heq
    unfold applyRunLengthEncoding at heq
    split_ifs at heq
    all_goals
      rw [JsonValue.canon_array] at heq
      cases heq
  | object inner ih =>
    intro heq
    rw [applyRunLengthEncoding_object, JsonValue.canon_object, JsonValue.canon_object,
      Doc.object.injEq] at heq
    have hlookup := congrArg (List.lookup "rle_value") heq
    have hmap := fun m : JsonMap => Assoc.lookup_map (fun _ v => JsonValue.canon v) "rle_value" m
    rw [hmap, hmap, lookup_applyRunLengthEncoding, h] at hlookup
    obtain ⟨c, hc, hcanon⟩ := Option.map_eq_some_iff.mp hlookup
    obtain ⟨value, hvalue, rfl⟩ := Option.map_eq_some_iff.mp hc
    exact ih "rle_value" value (Assoc.mem_of_lookup hvalue) hvalue hcanon

/-- The run survives: its count fits and it is coded, or it is a single element that the decoder
leaves alone. -/
def RunKept (r : JsonValue × ℕ) : Prop :=
  if UInt32.ofNat r.2 > config.minFrequencyCount then r.2 < 2 ^ 32
  else r.2 = 1 ∧ run? r.1 = none ∧ Intact r.1

/-- Everything survives the encoder and the decoder. -/
inductive Kept : JsonValue → Prop
  | scalar (s : JsonScalar) : Kept (.scalar s)
  | object {obj : JsonMap} (h : ∀ k v, (k, v) ∈ obj → Kept v) : Kept (.object obj)
  | short {arr : List JsonValue} (hlen : arr.length ≤ 2) (hruns : ∀ x ∈ arr, run? x = none)
      (h : ∀ x ∈ arr, Kept x) : Kept (.array arr)
  | long {arr : List JsonValue} (hlen : 2 < arr.length)
      (h : ∀ r ∈ Runs.runsBy JsonValue.canon arr, RunKept config r) : Kept (.array arr)

/-- A coded run is read as such, and a run that is not coded is its first element. -/
theorem codeRun_cases (r : JsonValue × ℕ) :
    (UInt32.ofNat r.2 > config.minFrequencyCount ∧
      run? (codeRun config r) = some (r.1, r.2 % 2 ^ 32) ∧
      wellMarked (codeRun config r) = decide (r.2 % 2 ^ 32 ≤ maxRleCount)) ∨
    ¬ UInt32.ofNat r.2 > config.minFrequencyCount ∧ codeRun config r = r.1 := by
  have hcount : (UInt32.ofNat r.2).toUInt64.toNat = r.2 % 2 ^ 32 := by
    rw [UInt32.toNat_toUInt64, UInt32.toNat_ofNat']
  unfold codeRun closeRun
  by_cases h : UInt32.ofNat r.2 > config.minFrequencyCount
  · rw [if_pos h, ← hcount]
    exact Or.inl ⟨h, rfl, rfl⟩
  · rw [if_neg h]
    exact Or.inr ⟨h, rfl⟩

/-- What comes back of a run does not outgrow it. -/
theorem shrinks_codeRun {r : JsonValue × ℕ} (hpos : 0 < r.2) :
    Runs.Shrinks (List.replicate r.2 r.1.canon)
      ((expandItem (codeRun config r)).map JsonValue.canon) := by
  rw [map_canon_expandItem]
  rcases codeRun_cases config r with ⟨-, hrun, -⟩ | ⟨-, hraw⟩
  · rw [hrun]
    left
    rw [List.length_replicate, List.length_replicate]
    exact Nat.mod_le r.2 (2 ^ 32)
  · rw [hraw]
    cases hrun : run? r.1 with
    | none =>
      left
      rw [List.length_replicate]
      exact hpos
    | some s =>
      refine Or.inr ⟨_, _, rfl, fun hmem => ?_⟩
      exact canon_ne_of_run? hrun (List.eq_of_mem_replicate hmem)

theorem eq_codeRun_iff {r : JsonValue × ℕ} (hpos : 0 < r.2) :
    List.replicate r.2 r.1.canon = (expandItem (codeRun config r)).map JsonValue.canon ↔
      RunKept config r := by
  rw [map_canon_expandItem]
  unfold RunKept
  rcases codeRun_cases config r with ⟨hlong, hrun, -⟩ | ⟨hshort, hraw⟩
  · rw [hrun, if_pos hlong]
    simp only [List.replicate_left_inj]
    omega
  · rw [hraw, if_neg hshort, ← expand_same_iff]
    cases hrun : run? r.1 with
    | none =>
      rw [show [(expand r.1).canon] = List.replicate 1 (expand r.1).canon from rfl,
        List.replicate_inj]
      exact ⟨fun h => ⟨h.1, rfl, (h.2.resolve_left hpos.ne').symm⟩,
        fun h => ⟨h.1, Or.inr h.2.2.symm⟩⟩
    | some s =>
      simp only [List.replicate_inj]
      refine iff_of_false (fun h => ?_) (fun h => by cases h.2.1)
      exact canon_ne_of_run? hrun (h.2.resolve_left hpos.ne').symm

theorem short_same_iff {arr : List JsonValue} (hlen : arr.length ≤ 2) :
    (expand (applyRunLengthEncoding config (.array arr))).Same (.array arr) ↔
      ∀ x ∈ arr, run? x = none ∧ (expand (applyRunLengthEncoding config x)).Same x := by
  rw [applyRunLengthEncoding_short config hlen, expand_array, List.flatMap_map]
  refine (same_items_iff (g := applyRunLengthEncoding config) ?_).trans ?_
  · intro x _ value count hrun
    rw [run?_applyRunLengthEncoding] at hrun
    obtain ⟨r, hr, heq⟩ := Option.map_eq_some_iff.mp hrun
    cases heq
    obtain ⟨obj, rfl, hlookup⟩ := lookup_of_run? hr
    exact canon_encoded_ne config hlookup
  · refine forall₂_congr fun x _ => ?_
    rw [run?_applyRunLengthEncoding, Option.map_eq_none_iff]

theorem long_same_iff {arr : List JsonValue} (hlen : 2 < arr.length) :
    (expand (applyRunLengthEncoding config (.array arr))).Same (.array arr) ↔
      ∀ r ∈ Runs.runsBy JsonValue.canon arr, RunKept config r := by
  rw [applyRunLengthEncoding_long config hlen, expand_array, List.flatMap_map]
  rw [same_array_iff (Runs.flatMap_runsBy JsonValue.canon arr)]
  · exact forall₂_congr fun r hr => eq_codeRun_iff config (Runs.mem_runsBy _ hr).2
  · intro r hr
    have hpos := (Runs.mem_runsBy _ hr).2
    exact ⟨by simpa using hpos.ne', shrinks_codeRun config hpos⟩

/-- The decoder gives back exactly the values that survive. -/
theorem expand_encoded_same_iff (v : JsonValue) :
    (expand (applyRunLengthEncoding config v)).Same v ↔ Kept config v := by
  induction v using Doc.induction with
  | scalar s => exact iff_of_true rfl (.scalar s)
  | array arr ih =>
    by_cases hlen : arr.length ≤ 2
    · rw [short_same_iff config hlen]
      constructor
      · exact fun h => .short hlen (fun x hx => (h x hx).1) fun x hx => (ih x hx).mp (h x hx).2
      · intro h x hx
        cases h with
        | short _ hruns h => exact ⟨hruns x hx, (ih x hx).mpr (h x hx)⟩
        | long hlong _ => exact absurd hlen (not_le.mpr hlong)
    · rw [long_same_iff config (not_le.mp hlen)]
      constructor
      · exact fun h => .long (not_le.mp hlen) h
      · intro h
        cases h with
        | short hshort _ _ => exact absurd hshort hlen
        | long _ h => exact h
  | object obj ih =>
    rw [applyRunLengthEncoding_object, expand_object, List.map_map]
    refine (same_object_iff (f := fun v => expand (applyRunLengthEncoding config v))).trans ?_
    constructor
    · exact fun h => .object fun k v hmem => (ih k v hmem).mp (h k v hmem)
    · intro h k v hmem
      cases h with
      | object h => exact (ih k v hmem).mpr (h k v hmem)

/-- The decoder accepts what becomes of the run. -/
def RunAccepted (r : JsonValue × ℕ) : Prop :=
  if UInt32.ofNat r.2 > config.minFrequencyCount then r.2 % 2 ^ 32 ≤ maxRleCount
  else wellMarked r.1 = true ∧ (run? r.1 = none → Readable r.1)

/-- What the run takes from the decoder's budget. -/
def codedCount (r : JsonValue × ℕ) : ℕ :=
  if UInt32.ofNat r.2 > config.minFrequencyCount then r.2 % 2 ^ 32 else runCount r.1

/-- The decoder accepts what the encoder makes of the value. -/
inductive Accepted : JsonValue → Prop
  | scalar (s : JsonScalar) : Accepted (.scalar s)
  | object {obj : JsonMap} (h : ∀ k v, (k, v) ∈ obj → Accepted v) : Accepted (.object obj)
  | short {arr : List JsonValue} (hlen : arr.length ≤ 2)
      (hmarked : ∀ x ∈ arr, wellMarked x = true) (h : ∀ x ∈ arr, run? x = none → Accepted x)
      (htotal : (arr.map runCount).sum ≤ maxDecompressedSize) : Accepted (.array arr)
  | long {arr : List JsonValue} (hlen : 2 < arr.length)
      (h : ∀ r ∈ Runs.runsBy JsonValue.canon arr, RunAccepted config r)
      (htotal : ((Runs.runsBy JsonValue.canon arr).map (codedCount config)).sum ≤
        maxDecompressedSize) : Accepted (.array arr)

theorem readable_array_iff {arr : List JsonValue} : Readable (.array arr) ↔
    (∀ x ∈ arr, wellMarked x = true ∧ (run? x = none → Readable x)) ∧
      (arr.map runCount).sum ≤ maxDecompressedSize := by
  constructor
  · intro h
    cases h with
    | array hmarked h htotal => exact ⟨fun x hx => ⟨hmarked x hx, h x hx⟩, htotal⟩
  · exact fun h => .array (fun x hx => (h.1 x hx).1) (fun x hx => (h.1 x hx).2) h.2

theorem runAccepted_iff (r : JsonValue × ℕ) : RunAccepted config r ↔
    wellMarked (codeRun config r) = true ∧
      (run? (codeRun config r) = none → Readable (codeRun config r)) := by
  unfold RunAccepted
  rcases codeRun_cases config r with ⟨hlong, hrun, hmarked⟩ | ⟨hshort, hraw⟩
  · rw [if_pos hlong, hrun, hmarked, decide_eq_true_eq]
    exact ⟨fun h => ⟨h, fun hnone => by cases hnone⟩, And.left⟩
  · rw [if_neg hshort, hraw]

theorem runCount_codeRun (r : JsonValue × ℕ) :
    runCount (codeRun config r) = codedCount config r := by
  unfold codedCount
  rcases codeRun_cases config r with ⟨hlong, hrun, -⟩ | ⟨hshort, hraw⟩
  · simp [runCount, hrun, hlong]
  · rw [if_neg hshort, hraw]

theorem runCount_applyRunLengthEncoding (x : JsonValue) :
    runCount (applyRunLengthEncoding config x) = runCount x := by
  unfold runCount
  rw [run?_applyRunLengthEncoding, Option.map_map]
  rfl

theorem readable_encoded_iff (v : JsonValue) :
    Readable (applyRunLengthEncoding config v) ↔ Accepted config v := by
  induction v using Doc.induction with
  | scalar s => exact iff_of_true (.scalar s) (.scalar s)
  | array arr ih =>
    by_cases hlen : arr.length ≤ 2
    · have hsum : runCount ∘ applyRunLengthEncoding config = runCount :=
        funext (runCount_applyRunLengthEncoding config)
      rw [applyRunLengthEncoding_short config hlen, readable_array_iff, List.forall_mem_map,
        List.map_map, hsum]
      simp only [wellMarked_applyRunLengthEncoding, run?_applyRunLengthEncoding,
        Option.map_eq_none_iff]
      constructor
      · rintro ⟨h, htotal⟩
        exact .short hlen (fun x hx => (h x hx).1) (fun x hx hrun => (ih x hx).mp ((h x hx).2 hrun))
          htotal
      · intro h
        cases h with
        | short _ hmarked h htotal =>
          exact ⟨fun x hx => ⟨hmarked x hx, fun hrun => (ih x hx).mpr (h x hx hrun)⟩, htotal⟩
        | long hlong _ _ => exact absurd hlen (not_le.mpr hlong)
    · have hsum : runCount ∘ codeRun config = codedCount config :=
        funext (runCount_codeRun config)
      rw [applyRunLengthEncoding_long config (not_le.mp hlen), readable_array_iff,
        List.forall_mem_map, List.map_map, hsum]
      simp only [← runAccepted_iff]
      constructor
      · exact fun h => .long (not_le.mp hlen) h.1 h.2
      · intro h
        cases h with
        | short hshort _ _ _ => exact absurd hshort hlen
        | long _ h htotal => exact ⟨h, htotal⟩
  | object obj ih =>
    rw [applyRunLengthEncoding_object]
    constructor
    · intro h
      cases h with
      | object h =>
        refine .object fun k v hmem => (ih k v hmem).mp (h k _ ?_)
        exact List.mem_map.mpr ⟨(k, v), hmem, rfl⟩
    · intro h
      cases h with
      | object h =>
        refine .object fun k w hmem => ?_
        obtain ⟨⟨j, v⟩, hv, heq⟩ := List.mem_map.mp hmem
        cases heq
        exact (ih j v hv).mpr (h j v hv)

theorem decompress_encoded_iff (v w : JsonValue) :
    decompressRunLength (applyRunLengthEncoding config v) = .ok w ↔
      Accepted config v ∧ w = expand (applyRunLengthEncoding config v) := by
  rw [decompressRunLength_eq_ok_iff, readable_encoded_iff]

/-- Nothing is corrupted silently exactly if the decoder refuses the code or everything survives. -/
theorem run_length_silent_iff (v : JsonValue) :
    (∀ w, decompressRunLength (applyRunLengthEncoding config v) = .ok w → w.Same v) ↔
      ¬ Accepted config v ∨ Kept config v := by
  rw [← expand_encoded_same_iff, ← imp_iff_not_or]
  constructor
  · exact fun h haccepted => h _ ((decompress_encoded_iff config v _).mpr ⟨haccepted, rfl⟩)
  · intro h w hw
    obtain ⟨haccepted, rfl⟩ := (decompress_encoded_iff config v w).mp hw
    exact h haccepted

/-- An array element with the keys of a run is taken for one: here one element comes back as two. -/
theorem user_object_expanded :
    let v : JsonValue := .array [.object [("rle_count", JsonValue.number (.posInt 2)),
      ("rle_value", JsonValue.null)]]
    let w : JsonValue := .array [JsonValue.null, JsonValue.null]
    decompressRunLength (applyRunLengthEncoding .default v) = .ok w ∧ ¬ w.Same v := by
  refine ⟨rfl, ?_⟩
  decide

end Encoded

section Plain

/-- The value is no object with a key of a run. -/
def unmarked : JsonValue → Bool
  | .object obj => (obj.lookup "rle_value").isNone && (obj.lookup "rle_count").isNone
  | _ => true

theorem run?_of_unmarked {x : JsonValue} (h : unmarked x = true) :
    run? x = none ∧ wellMarked x = true := by
  cases x with
  | scalar s => exact ⟨rfl, rfl⟩
  | array arr => exact ⟨rfl, rfl⟩
  | object obj =>
    simp only [unmarked, Bool.and_eq_true, Option.isNone_iff_eq_none] at h
    simp [run?, wellMarked, h.1, h.2]

/-- No array element has a key of a run, and runs and arrays keep to the decoder's limits. -/
inductive Plain : JsonValue → Prop
  | scalar (s : JsonScalar) : Plain (.scalar s)
  | object {obj : JsonMap} (h : ∀ k v, (k, v) ∈ obj → Plain v) : Plain (.object obj)
  | array {arr : List JsonValue} (hkeys : ∀ x ∈ arr, unmarked x = true) (h : ∀ x ∈ arr, Plain x)
      (hruns : ∀ r ∈ Runs.runsBy JsonValue.canon arr, r.2 ≤ maxRleCount)
      (hlen : arr.length ≤ maxDecompressedSize) : Plain (.array arr)

variable (config : CompressionConfig)

/-- Wherever the encoder looks for runs, a run is one element or long enough to be coded. -/
inductive RunsCoded : JsonValue → Prop
  | scalar (s : JsonScalar) : RunsCoded (.scalar s)
  | object {obj : JsonMap} (h : ∀ k v, (k, v) ∈ obj → RunsCoded v) : RunsCoded (.object obj)
  | short {arr : List JsonValue} (hlen : arr.length ≤ 2) (h : ∀ x ∈ arr, RunsCoded x) :
    RunsCoded (.array arr)
  | long {arr : List JsonValue} (hlen : 2 < arr.length)
      (h : ∀ r ∈ Runs.runsBy JsonValue.canon arr,
        r.2 = 1 ∨ config.minFrequencyCount.toNat < r.2) : RunsCoded (.array arr)

theorem sum_runCount_eq_zero {arr : List JsonValue} (h : ∀ x ∈ arr, run? x = none) :
    (arr.map runCount).sum = 0 := by
  rw [List.sum_eq_zero_iff]
  intro n hn
  obtain ⟨x, hx, rfl⟩ := List.mem_map.mp hn
  simp [runCount, h x hx]

/-- The decoder accepts plain values and leaves them alone. -/
theorem Plain.intact {v : JsonValue} (h : Plain v) : Intact v ∧ Readable v := by
  induction h with
  | scalar s => exact ⟨.scalar s, .scalar s⟩
  | object _ ih =>
    exact ⟨.object fun k v hmem => (ih k v hmem).1, .object fun k v hmem => (ih k v hmem).2⟩
  | @array arr hkeys _ _ _ ih =>
    have hnone : ∀ x ∈ arr, run? x = none := fun x hx => (run?_of_unmarked (hkeys x hx)).1
    refine ⟨.array hnone fun x hx => (ih x hx).1, .array ?_ (fun x hx _ => (ih x hx).2) ?_⟩
    · exact fun x hx => (run?_of_unmarked (hkeys x hx)).2
    · rw [sum_runCount_eq_zero hnone]
      exact Nat.zero_le _

/-- A run of a plain array is coded if it is longer than the minimum. -/
theorem coded_iff {n : ℕ} (hn : n ≤ maxRleCount) :
    UInt32.ofNat n > config.minFrequencyCount ↔ config.minFrequencyCount.toNat < n := by
  unfold maxRleCount at hn
  rw [gt_iff_lt, UInt32.lt_iff_toNat_lt, UInt32.toNat_ofNat', Nat.mod_eq_of_lt (by omega)]

theorem Plain.accepted {v : JsonValue} (h : Plain v) : Accepted config v := by
  induction h with
  | scalar s => exact .scalar s
  | object _ ih => exact .object ih
  | @array arr hkeys hplain hruns hsize ih =>
    have hnone : ∀ x ∈ arr, run? x = none := fun x hx => (run?_of_unmarked (hkeys x hx)).1
    by_cases hlen : arr.length ≤ 2
    · refine .short hlen (fun x hx => (run?_of_unmarked (hkeys x hx)).2) (fun x hx _ => ih x hx) ?_
      rw [sum_runCount_eq_zero hnone]
      exact Nat.zero_le _
    · refine .long (not_le.mp hlen) (fun r hr => ?_) ?_
      · have hmem := (Runs.mem_runsBy _ hr).1
        unfold RunAccepted
        split_ifs
        · exact (Nat.mod_le _ _).trans (hruns r hr)
        · exact ⟨(run?_of_unmarked (hkeys _ hmem)).2, fun _ => (hplain _ hmem).intact.2⟩
      · calc ((Runs.runsBy JsonValue.canon arr).map (codedCount config)).sum
            ≤ ((Runs.runsBy JsonValue.canon arr).map Prod.snd).sum := by
              refine List.sum_le_sum fun r hr => ?_
              unfold codedCount
              split_ifs
              · exact Nat.mod_le _ _
              · simp [runCount, hnone _ (Runs.mem_runsBy _ hr).1]
          _ = arr.length := Runs.length_runsBy _ arr
          _ ≤ maxDecompressedSize := hsize

theorem Plain.runKept_iff {r : JsonValue × ℕ} (hkeys : unmarked r.1 = true) (h : Plain r.1)
    (hn : r.2 ≤ maxRleCount) :
    RunKept config r ↔ r.2 = 1 ∨ config.minFrequencyCount.toNat < r.2 := by
  unfold RunKept
  simp only [coded_iff config hn, (run?_of_unmarked hkeys).1, h.intact.1, and_true]
  unfold maxRleCount at hn
  split_ifs with hlong
  · exact iff_of_true (by omega) (Or.inr hlong)
  · exact ⟨Or.inl, fun h => h.resolve_right hlong⟩

theorem Plain.kept_iff {v : JsonValue} (h : Plain v) : Kept config v ↔ RunsCoded config v := by
  induction h with
  | scalar s => exact iff_of_true (.scalar s) (.scalar s)
  | object _ ih =>
    constructor
    · intro h
      cases h with
      | object h => exact .object fun k v hmem => (ih k v hmem).mp (h k v hmem)
    · intro h
      cases h with
      | object h => exact .object fun k v hmem => (ih k v hmem).mpr (h k v hmem)
  | @array arr hkeys hplain hruns hsize ih =>
    have hrun : ∀ r ∈ Runs.runsBy JsonValue.canon arr,
        (RunKept config r ↔ r.2 = 1 ∨ config.minFrequencyCount.toNat < r.2) := by
      intro r hr
      have hmem := (Runs.mem_runsBy _ hr).1
      exact runKept_iff config (hkeys _ hmem) (hplain _ hmem) (hruns r hr)
    constructor
    · intro h
      cases h with
      | short hlen _ h => exact .short hlen fun x hx => (ih x hx).mp (h x hx)
      | long hlen h => exact .long hlen fun r hr => (hrun r hr).mp (h r hr)
    · intro h
      cases h with
      | short hlen h =>
        exact .short hlen (fun x hx => (run?_of_unmarked (hkeys x hx)).1)
          fun x hx => (ih x hx).mpr (h x hx)
      | long hlen h => exact .long hlen fun r hr => (hrun r hr).mpr (h r hr)

/-- A plain value comes back exactly if no run is too short to be coded and yet longer than one. -/
theorem run_length_round_trip_iff {v : JsonValue} (h : Plain v) :
    (∃ w, decompressRunLength (applyRunLengthEncoding config v) = .ok w ∧ w.Same v) ↔
      RunsCoded config v := by
  rw [← h.kept_iff, ← expand_encoded_same_iff]
  constructor
  · rintro ⟨w, hw, hsame⟩
    obtain ⟨-, rfl⟩ := (decompress_encoded_iff config v w).mp hw
    exact hsame
  · intro hsame
    exact ⟨_, (decompress_encoded_iff config v _).mpr ⟨h.accepted config, rfl⟩, hsame⟩

/-- Two fives and a six. -/
def fives : JsonValue :=
  .array [JsonValue.number (.posInt 5), JsonValue.number (.posInt 5), JsonValue.number (.posInt 6)]

theorem plain_fives : Plain fives := by
  refine .array (by decide) ?_ (by decide) (by decide)
  simp only [List.forall_mem_cons]
  exact ⟨.scalar _, .scalar _, .scalar _, by simp⟩

theorem run_length_round_trip_fives :
    Plain fives ∧
    ((∃ w, decompressRunLength (applyRunLengthEncoding .default fives) = .ok w ∧ w.Same fives) ↔
      RunsCoded .default fives) :=
  ⟨plain_fives, run_length_round_trip_iff .default plain_fives⟩

/-- With a minimum of two, a run of two is neither coded nor repeated. -/
theorem run_of_two_lost :
    let config := { CompressionConfig.default with minFrequencyCount := 2 }
    let w : JsonValue := .array [JsonValue.number (.posInt 5), JsonValue.number (.posInt 6)]
    Plain fives ∧ decompressRunLength (applyRunLengthEncoding config fives) = .ok w ∧
      ¬ w.Same fives := by
  refine ⟨plain_fives, rfl, ?_⟩
  decide

end Plain

end PJS
