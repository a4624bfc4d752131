import PJS.Domain.Serde
import PJS.Domain.StreamPatches

/-! Frames as JSON, and which of the frames a stream produces read back as they were written. -/
namespace PJS

/-- The texts of identifiers and instants; both are read back from the texts written for them. -/
structure TextForms where
  parseUuid : String → Except DeError (BitVec 128)
  showTime : DateTime → String
  parseTime : String → Except DeError DateTime
  parseUuid_toString : ∀ id : StreamId, parseUuid id.toString = .ok id.value
  parseTime_showTime : ∀ t, parseTime (showTime t) = .ok t

section Fields

def FrameType.name : FrameType → String
  | .skeleton => "Skeleton"
  | .patch => "Patch"
  | .complete => "Complete"
  | .error => "Error"

def FrameType.ofName : String → Except DeError FrameType
  | "Skeleton" => .ok .skeleton
  | "Patch" => .ok .patch
  | "Complete" => .ok .complete
  | "Error" => .ok .error
  | name => .error (.unknownVariant name)

/-- A unit variant is a string, or a map of its name to null. -/
def FrameType.deserialize : SerdeValue → Except DeError FrameType
  | .scalar (.string name) => ofName name
  | .object [(name, .scalar .null)] => ofName name
  | _ => .error (.invalidType "enum FrameType")

def deserializeString : SerdeValue → Except DeError String
  | .scalar (.string s) => .ok s
  | _ => .error (.invalidType "a string")

/-- An unsigned integer of at most `max`. -/
def deserializeUnsigned (max : ℕ) : SerdeValue → Except DeError ℕ
  | .scalar (.posInt n) => if n.toNat ≤ max then .ok n.toNat else .error (.invalidValue "unsigned")
  | .scalar (.negInt _) => .error (.invalidValue "unsigned")
  | _ => .error (.invalidType "unsigned")

def StreamId.deserialize (text : TextForms) (value : SerdeValue) : Except DeError StreamId := do
  let uuid ← text.parseUuid (← deserializeString value)
  return ⟨uuid⟩

def Priority.deserialize (value : SerdeValue) : Except DeError Priority := do
  let value ← deserializeUnsigned 255 value
  match Priority.new (UInt8.ofNat value) with
  | .ok priority => return priority
  | .error (.invalidPriority msg) => .error (.custom s!"Invalid priority value: {msg}")
  | .error _ => .error (.custom "")

/-- The loop over a map's entries, inserting into `map`. -/
def deserializeStrings (map : AssocMap String String) :
    List (String × SerdeValue) → Except DeError (AssocMap String String)
  | [] => .ok map
  | (key, value) :: rest => do
    let s ← deserializeString value
    deserializeStrings (map.insert key s) rest

def Metadata.deserialize : SerdeValue → Except DeError (AssocMap String String)
  | .object m => deserializeStrings .empty m
  | _ => .error (.invalidType "a map")

end Fields

namespace Frame

def serialize (text : TextForms) (frame : Frame) : SerdeValue :=
  .object [("stream_id", .scalar (.string frame.streamId.toString)),
    ("frame_type", .scalar (.string frame.frameType.name)),
    ("priority", .scalar (.posInt (UInt64.ofNat frame.priority.value))),
    ("sequence", .scalar (.posInt (UInt64.ofNat frame.sequence))),
    ("timestamp", .scalar (.string (text.showTime frame.timestamp))),
    ("payload", frame.payload.serialize),
    ("metadata", .object (frame.metadata.entries.map fun e => (e.1, .scalar (.string e.2))))]

/-- The fields of a frame read so far. -/
structure Fields where
  streamId : Option StreamId
  frameType : Option FrameType
  priority : Option Priority
  sequence : Option ℕ
  timestamp : Option DateTime
  payload : Option JsonData
  metadata : Option (AssocMap String String)

def Fields.none : Fields := ⟨.none, .none, .none, .none, .none, .none, .none⟩

/-- Read a field that may be given once. -/
def Fields.once {α : Type} (name : String) (slot : Option α) (value : Except DeError α) :
    Except DeError (Option α) :=
  if slot.isSome then .error (.duplicateField name) else value.map some

/-- Read one field; an unknown one is ignored. -/
def Fields.visit (text : TextForms) (fields : Fields) (key : String) (value : SerdeValue) :
    Except DeError Fields :=
  match key with
  | "stream_id" => do
    return { fields with streamId := ← once key fields.streamId (StreamId.deserialize text value) }
  | "frame_type" => do
    return { fields with frameType := ← once key fields.frameType (FrameType.deserialize value) }
  | "priority" => do
    return { fields with priority := ← once key fields.priority (Priority.deserialize value) }
  | "sequence" => do
    return { fields with
      sequence := ← once key fields.sequence (deserializeUnsigned (2 ^ 64 - 1) value) }
  | "timestamp" => do
    return { fields with
      timestamp := ← once key fields.timestamp (deserializeString value >>= text.parseTime) }
  | "payload" => do
    return { fields with payload := ← once key fields.payload (JsonData.deserialize value) }
  | "metadata" => do
    return { fields with metadata := ← once key fields.metadata (Metadata.deserialize value) }
  | _ => .ok fields

def Fields.visitAll (text : TextForms) (fields : Fields) :
    List (String × SerdeValue) → Except DeError Fields
  | [] => .ok fields
  | (key, value) :: rest => do visitAll text (← fields.visit text key value) rest

def Fields.required {α : Type} (name : String) : Option α → Except DeError α
  | some a => .ok a
  | .none => .error (.missingField name)

def Fields.build (fields : Fields) : Except DeError Frame := do
  return {
    streamId := ← required "stream_id" fields.streamId
    frameType := ← required "frame_type" fields.frameType
    priority := ← required "priority" fields.priority
    sequence := ← required "sequence" fields.sequence
    timestamp := ← required "timestamp" fields.timestamp
    payload := ← required "payload" fields.payload
    metadata := ← required "metadata" fields.metadata }

def fieldNames : List String :=
  ["stream_id", "frame_type", "priority", "sequence", "timestamp", "payload", "metadata"]

/-- A frame is a map of its fields, or the sequence of them. -/
def deserialize (text : TextForms) : SerdeValue → Except DeError Frame
  | .object m => do (← Fields.none.visitAll text m).build
  | .array xs => do
    let fields ← Fields.none.visitAll text (fieldNames.zip xs)
    if xs.length < fieldNames.length then .error (.invalidLength xs.length)
    else if fieldNames.length < xs.length then .error .trailingCharacters
    else fields.build
  | .scalar _ => .error (.invalidType "struct Frame")

end Frame

section RoundTrip
variable (text : TextForms)

theorem FrameType.ofName_name (frameType : FrameType) : ofName frameType.name = .ok frameType := by
  cases frameType <;> rfl

theorem deserializeUnsigned_posInt {n max : ℕ} (h : n ≤ max) (hmax : max < 2 ^ 64) :
    deserializeUnsigned max (.scalar (.posInt (UInt64.ofNat n))) = .ok n := by
  have hn : (UInt64.ofNat n).toNat = n := UInt64.toNat_ofNat_of_lt' (lt_of_le_of_lt h hmax)
  simp only [deserializeUnsigned, hn, h, if_true]

theorem Priority.deserialize_posInt (priority : Priority) :
    deserialize (.scalar (.posInt (UInt64.ofNat priority.value))) = .ok priority := by
  have hpos := priority.pos
  have hle := priority.le_max
  have hn : (UInt8.ofNat priority.value).toNat = priority.value :=
    UInt8.toNat_ofNat_of_lt' (Nat.lt_succ_of_le hle)
  rw [deserialize, deserializeUnsigned_posInt hle (by decide)]
  simp only [Priority.new, hn, hpos, bind, Except.bind]
  rfl

theorem deserializeStrings_entries {m : List (String × String)} {map : AssocMap String String}
    (h : ((map.entries ++ m).map Prod.fst).Nodup) :
    ∃ map', deserializeStrings map (m.map fun e => (e.1, .scalar (.string e.2))) = .ok map' ∧
      map'.entries = map.entries ++ m := by
  induction m generalizing map with
  | nil => exact ⟨map, rfl, by rw [List.append_nil]⟩
  | cons e m ih =>
    have hfresh : e.1 ∉ map.keys := by
      rw [List.map_append, List.map_cons] at h
      exact fun hmem => (List.nodup_append.mp h).2.2 e.1 hmem e.1 (by simp) rfl
    have hinsert := AssocMap.entries_insert_of_notMem hfresh e.2
    obtain ⟨map', hrun, hentries⟩ := @ih (map.insert e.1 e.2) (by
      rwa [hinsert, List.append_assoc, List.singleton_append])
    refine ⟨map', hrun, ?_⟩
    rw [hentries, hinsert, List.append_assoc, List.singleton_append]

theorem Metadata.deserialize_strings (metadata : AssocMap String String) :
    deserialize (.object (metadata.entries.map fun e => (e.1, .scalar (.string e.2)))) =
      .ok metadata := by
  obtain ⟨map, hrun, hentries⟩ :=
    @deserializeStrings_entries metadata.entries .empty metadata.nodup
  rw [deserialize, hrun, AssocMap.ext hentries]

namespace Frame

/-- Whether a frame reads back is decided by its payload. -/
theorem deserialize_serialize {frame : Frame} (hseq : frame.sequence < 2 ^ 64) :
    deserialize text (serialize text frame) =
      (JsonData.deserialize frame.payload.serialize).map fun payload =>
        { frame with payload } := by
  have hid : StreamId.deserialize text (.scalar (.string frame.streamId.toString)) =
      .ok frame.streamId := by
    rw [StreamId.deserialize, deserializeString]
    simp only [bind, Except.bind, text.parseUuid_toString]
    rfl
  have htype : FrameType.deserialize (.scalar (.string frame.frameType.name)) =
      .ok frame.frameType := frame.frameType.ofName_name
  have hpriority := frame.priority.deserialize_posInt
  have hsequence := @deserializeUnsigned_posInt frame.sequence (2 ^ 64 - 1) (by omega)
    (by decide)
  have htime : deserializeString (.scalar (.string (text.showTime frame.timestamp))) >>=
      text.parseTime = .ok frame.timestamp := text.parseTime_showTime frame.timestamp
  have hmetadata := Metadata.deserialize_strings frame.metadata
  rw [serialize, deserialize]
  simp only [Fields.visitAll, Fields.visit, Fields.once, Fields.none, hid, htype, hpriority,
    hsequence, htime, hmetadata]
  cases JsonData.deserialize frame.payload.serialize with
  | error e => rfl
  | ok payload => rfl

theorem nests_of_deserialize_serialize {frame : Frame} (hseq : frame.sequence < 2 ^ 64)
    (h : deserialize text (serialize text frame) = .ok frame) :
    frame.payload.Nests JsonData.maxDeserializeDepth := by
  rw [deserialize_serialize text hseq] at h
  cases hpayload : JsonData.deserialize frame.payload.serialize with
  | error e =>
    rw [hpayload] at h
    cases h
  | ok payload =>
    rw [hpayload, Except.map, Except.ok.injEq] at h
    rw [← congrArg Frame.payload h]
    exact JsonData.nests_of_deserializeAt (Nat.zero_add _) hpayload

theorem deserialize_serialize_iff {frame : Frame} (hseq : frame.sequence < 2 ^ 64)
    (hkeys : frame.payload.Distinct) (hw : frame.payload.Over JsonData.Writable) :
    deserialize text (serialize text frame) = .ok frame ↔
      frame.payload.Nests JsonData.maxDeserializeDepth := by
  refine ⟨nests_of_deserialize_serialize text hseq, fun hn => ?_⟩
  rw [deserialize_serialize text hseq, (JsonData.deserialize_serialize_iff hkeys hw).mpr hn]
  rfl

/-- The payload of a patch frame. -/
def patchPayload (patches : List FramePatch) : JsonData :=
  .object [("patches", .array (patches.map FramePatch.toPayload))]

/-- A patch frame puts three containers around the values it carries. -/
theorem nests_patchPayload_iff {patches : List FramePatch} {n : ℕ} :
    (patchPayload patches).Nests (n + 3) ↔ ∀ patch ∈ patches, patch.value.Nests n := by
  rw [patchPayload, Doc.nests_object_iff]
  simp only [Prod.mk.injEq, and_imp, forall_eq_apply_imp_iff, forall_eq, Doc.nests_array_iff,
    List.forall_mem_map, FramePatch.toPayload, Doc.nests_object_iff, List.mem_cons,
    List.not_mem_nil, or_false]
  refine forall₂_congr fun patch _ => ⟨fun h => h "value" _ (by simp), fun h => ?_⟩
  rintro k v (⟨-, rfl⟩ | ⟨-, rfl⟩ | ⟨-, rfl⟩)
  · exact .scalar n _
  · exact .scalar n _
  · exact h

theorem distinct_patchPayload {patches : List FramePatch}
    (h : ∀ patch ∈ patches, patch.value.Distinct) : (patchPayload patches).Distinct := by
  refine .object (List.pairwise_singleton _ _) fun k v hkv => ?_
  rw [List.mem_singleton, Prod.mk.injEq] at hkv
  rw [hkv.2]
  have hnames : (["path", "operation", "value"] : List String).Pairwise (· ≠ ·) := by decide
  refine .array (List.forall_mem_map.mpr fun patch hpatch => .object hnames ?_)
  simp only [List.mem_cons, Prod.mk.injEq, List.not_mem_nil, or_false]
  rintro k v (⟨-, rfl⟩ | ⟨-, rfl⟩ | ⟨-, rfl⟩)
  · exact .scalar _
  · exact .scalar _
  · exact h patch hpatch

theorem writable_patchPayload {patches : List FramePatch}
    (h : ∀ patch ∈ patches, patch.value.Over JsonData.Writable) :
    (patchPayload patches).Over JsonData.Writable := by
  refine .object fun k v hkv => ?_
  rw [List.mem_singleton, Prod.mk.injEq] at hkv
  rw [hkv.2]
  refine .array (List.forall_mem_map.mpr fun patch hpatch => .object ?_)
  simp only [List.mem_cons, Prod.mk.injEq, List.not_mem_nil, or_false]
  rintro k v (⟨-, rfl⟩ | ⟨-, rfl⟩ | ⟨-, rfl⟩)
  · exact .scalar trivial
  · exact .scalar trivial
  · exact h patch hpatch

end Frame

end RoundTrip

section Texts

/-- The value of a lower-case hexadecimal digit. -/
def hexValue (c : Char) : ℕ := if c.isDigit then c.toNat - '0'.toNat else c.toNat - 'a'.toNat + 10

theorem hexValue_digitChar {n : ℕ} (h : n < 16) : hexValue (Nat.digitChar n) = n := by
  have hall : ∀ n < 16, hexValue (Nat.digitChar n) = n := by decide
  exact hall n h

theorem digitChar_ne_hyphen {n : ℕ} (h : n < 16) : Nat.digitChar n ≠ '-' := by
  have hall : ∀ n < 16, Nat.digitChar n ≠ '-' := by decide
  exact hall n h

/-- The hyphenated form of a UUID, read back. -/
def parseHyphenated (s : String) : BitVec 128 :=
  let digits := s.toList.filter (· ≠ '-')
  BitVec.ofNat 128 (digits.foldl (fun n c => 16 * n + hexValue c) 0)

theorem foldl_hexValue (v : BitVec 128) {k : ℕ} (h : k ≤ 32) :
    ((List.range k).map fun i => Nat.digitChar (v.toNat >>> (4 * (31 - i)) % 16)).foldl
      (fun n c => 16 * n + hexValue c) 0 = v.toNat >>> (4 * (32 - k)) := by
  induction k with
  | zero =>
    have hlt : v.toNat < 2 ^ 128 := v.isLt
    rw [Nat.shiftRight_eq_div_pow, Nat.div_eq_of_lt hlt]
    rfl
  | succ k ih =>
    rw [List.range_succ, List.map_append, List.foldl_append, ih (by omega)]
    have hdigit := hexValue_digitChar (n := v.toNat >>> (4 * (31 - k)) % 16)
      (Nat.mod_lt _ (by decide))
    have hshift : v.toNat >>> (4 * (32 - k)) = v.toNat >>> (4 * (31 - k)) / 16 := by
      rw [show 4 * (32 - k) = 4 * (31 - k) + 4 by omega, Nat.shiftRight_add,
        Nat.shiftRight_eq_div_pow _ 4]
    have hdiv := Nat.div_add_mod (v.toNat >>> (4 * (31 - k))) 16
    simp only [List.map_cons, List.map_nil, List.foldl_cons, List.foldl_nil, hdigit, hshift]
    rw [show 32 - (k + 1) = 31 - k by omega]
    exact hdiv

theorem parseHyphenated_toString (id : StreamId) : parseHyphenated id.toString = id.value := by
  have hdigits : id.toString.toList.filter (· ≠ '-') =
      (List.range 32).map fun i => Nat.digitChar (id.value.toNat >>> (4 * (31 - i)) % 16) := by
    rw [Id.toString, String.toList_ofList]
    generalize hdigit : (fun i => Nat.digitChar (id.value.toNat >>> (4 * (31 - i)) % 16)) = digit
    have hkeep : ∀ l : List ℕ, (l.map digit).filter (· ≠ '-') = l.map digit := by
      intro l
      refine List.filter_eq_self.mpr (List.forall_mem_map.mpr fun i _ => ?_)
      rw [← hdigit]
      exact decide_eq_true (digitChar_ne_hyphen (Nat.mod_lt _ (by decide)))
    have hrange : List.range 32 = List.range' 0 8 ++ List.range' 8 4 ++ List.range' 12 4 ++
        List.range' 16 4 ++ List.range' 20 12 := rfl
    have hhyphen : decide ('-' ≠ '-') = false := rfl
    simp only [List.filter_append, List.filter_cons, hkeep, hhyphen, Bool.false_eq_true, if_false,
      hrange, List.map_append]
  rw [parseHyphenated, hdigits, foldl_hexValue id.value le_rfl]
  simp

theorem repr_ne_epoch (n : ℕ) : Nat.repr n ≠ "1970-01-01T00:00:00Z" := by
  intro h
  have hmem : 'T' ∈ (Nat.repr n).toList := by
    rw [h]
    decide
  rw [Nat.toList_repr] at hmem
  exact absurd (Nat.isDigit_of_mem_toDigits (by decide) (by decide) hmem) (by decide)

/-- Texts of identifiers in their hyphenated form, and of instants in a form that agrees with the
standard one at the epoch. -/
def epochTexts : TextForms where
  parseUuid s := .ok (parseHyphenated s)
  showTime t :=
    if t = .epoch then "1970-01-01T00:00:00Z"
    else Nat.repr (t.nanos + 8334601228800 * 1000000000).toNat
  parseTime s :=
    if s = "1970-01-01T00:00:00Z" then .ok .epoch
    else s.toNat?.elim (.error (.custom "input contains invalid characters")) fun n =>
      if h : (n : ℤ) - 8334601228800 * 1000000000 ≤ 8210266876799 * 1000000000 + 999999999 then
        .ok ⟨n - 8334601228800 * 1000000000, by omega, h⟩
      else .error (.custom "input is out of range")
  parseUuid_toString id := by rw [parseHyphenated_toString]
  parseTime_showTime t := by
    have hlower := t.lower
    have hupper := t.upper
    by_cases ht : t = .epoch
    · rw [if_pos ht, if_pos rfl, ht]
    · have hnat : ((t.nanos + 8334601228800 * 1000000000).toNat : ℤ) =
          t.nanos + 8334601228800 * 1000000000 := Int.toNat_of_nonneg (by omega)
      simp only [if_neg ht, if_neg (repr_ne_epoch _), Nat.toNat?_repr, Option.elim_some]
      rw [dif_pos (by omega), Except.ok.injEq]
      cases t
      simp only [DateTime.mk.injEq]
      omega

end Texts
namespace Stream

section Produced
variable {text : TextForms} {env : Env} {stream : Stream} {d : DataDocument}

/-- The frame is the skeleton of the stream, one of its patch frames at some threshold, or the
frame a session finalizes for one chunk of its patches. -/
inductive Produces (env : Env) (stream : Stream) (frame : Frame) : Prop
  | skeleton (h : (stream.createSkeletonFrame env).1 = .ok frame)
  | patches {threshold : Priority} {maxFrames : ℕ} {frames : List Frame}
      (h : (stream.createPatchFrames env threshold maxFrames).1 = .ok frames)
      (hframe : frame ∈ frames)
  | chunk {threshold : Priority} {extracted : List (FramePatch × Priority)} {maxFrames : ℕ}
      {chunk : Priority × List FramePatch}
      (h : stream.extractPrioritizedPatches threshold = .ok extracted)
      (hchunk : chunk ∈ chunkPatchesForCommit extracted maxFrames)
      (hframe : (stream.finalizePatchFrame env chunk.1 chunk.2).1 = .ok frame)

/-- The frame carries the chunk, at the chunk's priority. -/
def Carries (chunk : Priority × List FramePatch) (frame : Frame) : Prop :=
  frame.frameType = .patch ∧ frame.priority = chunk.1 ∧ frame.payload = Frame.patchPayload chunk.2

theorem payload_finalizePatchFrame {priority : Priority} {patches : List FramePatch} {frame : Frame}
    (h : (stream.finalizePatchFrame env priority patches).1 = .ok frame) :
    frame.payload = Frame.patchPayload patches := by
  unfold finalizePatchFrame Frame.patch at h
  split_ifs at h
  cases h
  rfl

theorem exists_finalizePatchFrame (env : Env) (hstate : stream.state = .streaming)
    {chunk : Priority × List FramePatch} (hne : chunk.2 ≠ []) :
    ∃ frame stream', stream.finalizePatchFrame env chunk.1 chunk.2 = (.ok frame, stream') ∧
      Carries chunk frame ∧ stream'.state = .streaming := by
  have hempty : chunk.2.isEmpty = false := by simpa using hne
  obtain ⟨frame, hframe, hcarries⟩ : ∃ frame, Frame.patch stream.id stream.nextSequence chunk.1
      chunk.2 (env.utc 0) = .ok frame ∧ Carries chunk frame := by
    simp only [Frame.patch, hempty, Bool.false_eq_true, if_false, Except.ok.injEq, exists_eq_left']
    exact ⟨rfl, rfl, rfl⟩
  refine ⟨frame, stream.recordFrameCreated (env.later 1) frame, ?_, hcarries, hstate⟩
  simp only [finalizePatchFrame, hstate, hframe, ne_eq, not_true_eq_false, if_false]

/-- Finalizing chunks makes one frame of each. -/
theorem finalizeChunks_carry (env : Env) (hstate : stream.state = .streaming)
    {chunks : List (Priority × List FramePatch)} (hne : ∀ chunk ∈ chunks, chunk.2 ≠ []) :
    ∃ frames stream', finalizeChunks env stream chunks = (.ok frames, stream') ∧
      List.Forall₂ Carries chunks frames ∧ stream'.state = .streaming := by
  induction chunks generalizing env stream with
  | nil => exact ⟨[], stream, rfl, .nil, hstate⟩
  | cons chunk rest ih =>
    obtain ⟨frame, stream', hfirst, hcarries, hstate'⟩ :=
      exists_finalizePatchFrame env hstate (hne chunk (by simp))
    obtain ⟨frames, stream'', hrest, hall, hstate''⟩ :=
      ih (env.later 2) hstate' fun c hc => hne c (by simp [hc])
    refine ⟨frame :: frames, stream'', ?_, .cons hcarries hall, hstate''⟩
    rw [finalizeChunks, hfirst]
    simp only [hrest]

/-- A patch batch makes one frame of each chunk of the extracted patches. -/
theorem createPatchFrames_carry (env : Env) (hstate : stream.state = .streaming)
    (hdata : stream.sourceData = some d) (threshold : Priority) (maxFrames : ℕ) :
    ∃ frames stream', stream.createPatchFrames env threshold maxFrames = (.ok frames, stream') ∧
      List.Forall₂ Carries
        (chunkPatchesForCommit (stream.extractPatches d.value threshold) maxFrames) frames ∧
      stream'.state = .streaming := by
  obtain ⟨frames, stream', hrun, hcarries, hstate'⟩ := finalizeChunks_carry env hstate
    fun chunk (hchunk : chunk ∈ chunkPatchesForCommit (stream.extractPatches d.value threshold)
      maxFrames) => ne_nil_of_mem_chunkPatchesForCommit hchunk
  refine ⟨frames, stream', ?_, hcarries, hstate'⟩
  rw [createPatchFrames, extractPrioritizedPatches_eq_ok hstate hdata]
  simpa only [commitPatchFrames, hstate, ne_eq, not_true_eq_false, if_false] using hrun

theorem mem_of_mem_chunk {patches : List (FramePatch × Priority)} {maxFrames : ℕ}
    {chunk : Priority × List FramePatch} (h : chunk ∈ chunkPatchesForCommit patches maxFrames)
    {patch : FramePatch} (hpatch : patch ∈ chunk.2) : ∃ p ∈ patches, p.1 = patch := by
  have hpos : 1 ≤ maxFrames := by
    by_contra hzero
    rw [chunkPatchesForCommit, if_pos (Or.inr (by omega))] at h
    simp at h
  have hmem : patch ∈ (chunkPatchesForCommit patches maxFrames).flatMap Prod.snd :=
    List.mem_flatMap.mpr ⟨chunk, h, hpatch⟩
  rwa [flatMap_chunkPatchesForCommit patches hpos, List.mem_map] at hmem

theorem payload_of_produces (hstate : stream.state = .streaming)
    (hdata : stream.sourceData = some d) {frame : Frame} (h : stream.Produces env frame) :
    frame.payload = generateSkeleton d.value ∨
      ∃ patches, frame.payload = Frame.patchPayload patches ∧
        ∀ patch ∈ patches, patch.setting ∈ d.value.leaves ValidKey := by
  have hchunk : ∀ {threshold maxFrames} {chunk : Priority × List FramePatch},
      chunk ∈ chunkPatchesForCommit (stream.extractPatches d.value threshold) maxFrames →
      ∀ patch ∈ chunk.2, patch.setting ∈ d.value.leaves ValidKey := by
    intro threshold maxFrames chunk hchunk patch hpatch
    obtain ⟨p, hp, rfl⟩ := mem_of_mem_chunk hchunk hpatch
    exact (mem_extractPatches_iff.mp hp).1
  cases h with
  | skeleton h =>
    simp only [createSkeletonFrame, hstate, hdata, ne_eq, not_true_eq_false, if_false,
      Except.ok.injEq] at h
    subst h
    exact Or.inl rfl
  | @patches threshold maxFrames frames h hframe =>
    obtain ⟨frames', stream', hrun, hcarries, -⟩ :=
      createPatchFrames_carry env hstate hdata threshold maxFrames
    rw [hrun, Except.ok.injEq] at h
    subst h
    obtain ⟨chunk, hmem, -, -, hpayload⟩ := Lists.exists_of_mem_right hcarries hframe
    exact Or.inr ⟨chunk.2, hpayload, hchunk hmem⟩
  | @chunk threshold extracted maxFrames chunk h hmem hframe =>
    rw [extractPrioritizedPatches_eq_ok hstate hdata, Except.ok.injEq] at h
    subst h
    exact Or.inr ⟨chunk.2, payload_finalizePatchFrame hframe, hchunk hmem⟩

theorem writable_placeholder (s : DataScalar) : JsonData.Writable (placeholder s) := by
  cases s with
  | float f => exact (by decide : Float.isFinite 0.0 = true)
  | _ => trivial

/-- The skeleton is no deeper than the data and as readable. -/
theorem skeleton_readable {n : ℕ} (d : DataDocument) (hn : d.value.Nests n)
    (hw : d.value.Over JsonData.Writable) :
    (generateSkeleton d.value).Nests n ∧ (generateSkeleton d.value).Distinct ∧
      (generateSkeleton d.value).Over JsonData.Writable := by
  have hd := d.distinct
  cases hv : d.value with
  | scalar s => exact ⟨.scalar n _, .scalar _, .scalar trivial⟩
  | array xs =>
    rw [hv] at hn
    cases hn with
    | array _ => exact ⟨.array (by simp), .array (by simp), .array (by simp)⟩
  | object m =>
    rw [hv] at hn hw hd
    rw [generateSkeleton_object hd]
    exact ⟨hn.blankOut, hd.blankOut, hw.blankOut fun s _ => writable_placeholder s⟩

/-- What a leaf of the source data carries is as readable as the data. -/
theorem leaf_readable (hw : d.value.Over JsonData.Writable) {patch : FramePatch}
    (h : patch.setting ∈ d.value.leaves ValidKey) :
    patch.value.Distinct ∧ patch.value.Over JsonData.Writable := by
  have hfield : ∀ (m : List (String × JsonData)) (k : String) (v : JsonData),
      (JsonData.Distinct (.object m) ∧ Doc.Over JsonData.Writable (.object m)) → (k, v) ∈ m →
      v.Distinct ∧ v.Over JsonData.Writable := by
    rintro m k v ⟨hd, ho⟩ hkv
    cases ho with
    | object ho => exact ⟨(Doc.keyed_object_iff.mp hd).2 k v hkv, ho k v hkv⟩
  obtain ⟨v, hv, hread⟩ := Doc.forall_leaves
    (Q := fun v => JsonData.Distinct v ∧ v.Over JsonData.Writable) hfield ⟨d.distinct, hw⟩ h
  cases hv
  exact hread

/-- At the lowest threshold and in one frame, a stream sends all its leaves. -/
theorem exists_patch_frame (env : Env) (hstate : stream.state = .streaming)
    (hdata : stream.sourceData = some d) {leaf : Doc.Patch String DataScalar}
    (hleaf : leaf ∈ d.value.leaves ValidKey) :
    ∃ frame patches, (stream.createPatchFrames env .minimum 1).1 = .ok [frame] ∧
      frame.sequence = stream.nextSequence ∧ frame.payload = Frame.patchPayload patches ∧
      ∃ patch ∈ patches, patch.setting = leaf := by
  obtain ⟨p, hp, rfl⟩ :=
    List.mem_map.mp ((extractPatches_minimum_perm stream d.value).mem_iff.mpr hleaf)
  have hpos : 0 < (stream.extractPatches d.value .minimum).length := List.length_pos_of_mem hp
  set patches := stream.extractPatches d.value .minimum with hpatches
  obtain ⟨chunk, hchunk⟩ : ∃ chunk, chunkPatchesForCommit patches 1 = [chunk] := by
    rw [← List.length_eq_one_iff, chunkPatchesForCommit, if_neg (by simp [List.ne_nil_of_mem hp]),
      List.length_map, Nat.add_sub_cancel, Nat.div_one, max_eq_left hpos,
      Lists.length_toChunks hpos]
    exact Nat.div_eq_of_lt_le (by omega) (by omega)
  have hall : chunk.2 = patches.map Prod.fst := by
    have hflat := flatMap_chunkPatchesForCommit patches le_rfl
    rwa [hchunk, List.flatMap_singleton] at hflat
  have hne : chunk.2.isEmpty = false := by
    rw [hall, List.isEmpty_eq_false_iff_exists_mem]
    exact ⟨p.1, List.mem_map_of_mem hp⟩
  refine ⟨⟨stream.id, .patch, chunk.1, stream.nextSequence, env.utc 0, Frame.patchPayload chunk.2,
    .empty⟩, chunk.2, ?_, rfl, rfl, p.1, by rw [hall]; exact List.mem_map_of_mem hp, rfl⟩
  rw [createPatchFrames, extractPrioritizedPatches_eq_ok hstate hdata]
  simp only [commitPatchFrames, hstate, ← hpatches, hchunk, finalizeChunks, finalizePatchFrame,
    Frame.patch, hne, ne_eq, not_true_eq_false, if_false, Bool.false_eq_true]
  rfl

/-- Every frame reads back iff no value that a path reaches outside arrays nests deeper than 61. -/
theorem frames_read_back_iff (text : TextForms) (env : Env) (hstate : stream.state = .streaming)
    (hdata : stream.sourceData = some d) (hnext : stream.nextSequence < 2 ^ 64)
    (haccepted : ∃ value, JsonData.deserialize value = .ok d.value)
    (hfinite : d.value.Over JsonData.Writable) :
    (∀ frame, stream.Produces env frame → frame.sequence < 2 ^ 64 →
      Frame.deserialize text (frame.serialize text) = .ok frame) ↔
    ∀ path v, ⟨path, .set v⟩ ∈ d.value.leaves ValidKey → v.Nests 61 := by
  constructor
  · intro h path v hleaf
    obtain ⟨frame, patches, hrun, hseq, hpayload, patch, hpatch, hsetting⟩ :=
      exists_patch_frame env hstate hdata hleaf
    have hread := h frame (.patches hrun (by simp)) (hseq ▸ hnext)
    have hnests := Frame.nests_of_deserialize_serialize text (hseq ▸ hnext) hread
    rw [hpayload] at hnests
    have hvalue := Frame.nests_patchPayload_iff.mp hnests patch hpatch
    cases hsetting
    exact hvalue
  · intro h frame hproduced hseq
    obtain ⟨value, hwire⟩ := haccepted
    have hnests := JsonData.nests_of_deserializeAt (Nat.zero_add _) hwire
    rcases payload_of_produces hstate hdata hproduced with hpayload | ⟨patches, hpayload, hpatches⟩
    · obtain ⟨hn, hkeys, hw⟩ := skeleton_readable d hnests hfinite
      rw [Frame.deserialize_serialize_iff text hseq (by rwa [hpayload]) (by rwa [hpayload]),
        hpayload]
      exact hn
    · have hkeys := Frame.distinct_patchPayload fun patch hpatch =>
        (leaf_readable hfinite (hpatches patch hpatch)).1
      have hw := Frame.writable_patchPayload fun patch hpatch =>
        (leaf_readable hfinite (hpatches patch hpatch)).2
      rw [Frame.deserialize_serialize_iff text hseq (by rwa [hpayload]) (by rwa [hpayload]),
        hpayload]
      exact Frame.nests_patchPayload_iff.mpr fun patch hpatch =>
        h patch.path.segments patch.value (hpatches patch hpatch)

def stillEnv : Env := ⟨fun _ => .epoch, ⟨1⟩, fun _ => ""⟩

theorem frames_read_back_iff_user :
    (∀ frame, (started userDocument).Produces stillEnv frame → frame.sequence < 2 ^ 64 →
      Frame.deserialize epochTexts (frame.serialize epochTexts) = .ok frame) ↔
    ∀ path v, ⟨path, .set v⟩ ∈ userDocument.value.leaves ValidKey → v.Nests 61 := by
  refine frames_read_back_iff epochTexts stillEnv rfl rfl (by decide)
    ⟨JsonData.serialize userDocument.value, rfl⟩ (.object ?_)
  simp only [List.mem_cons, Prod.mk.injEq, List.not_mem_nil, or_false]
  rintro k v (⟨rfl, rfl⟩ | ⟨rfl, rfl⟩ | ⟨rfl, rfl⟩)
  · exact .scalar trivial
  · exact .array (by simpa using .scalar trivial)
  · exact .object (by simpa using .scalar trivial)

/-- An empty array inside `n` arrays. -/
def nested : ℕ → JsonData
  | 0 => .array []
  | n + 1 => .array [nested n]

theorem keyed_nested (n : ℕ) : (nested n).Distinct := by
  induction n with
  | zero => exact .array (by simp)
  | succ n ih => exact .array (by simpa using ih)

/-- Sixty-two arrays around one another. -/
def nestedDocument : DataDocument := ⟨nested 61, keyed_nested 61⟩

/-- The array is accepted, and the frame that carries it is not. -/
theorem nested_not_read_back :
    JsonData.deserialize (JsonData.serialize nestedDocument.value) = .ok nestedDocument.value ∧
    ∃ frame, (started nestedDocument).Produces stillEnv frame ∧ frame.sequence = 1 ∧
      Frame.deserialize epochTexts (frame.serialize epochTexts) =
        .error (.custom "JSON nesting depth exceeds maximum of 64") := by
  refine ⟨by decide +kernel, _, @Produces.patches _ _ _ .minimum 1 _ rfl
    (List.mem_singleton_self _), rfl, ?_⟩
  rw [Frame.deserialize_serialize epochTexts (by decide)]
  decide +kernel

end Produced

end Stream

end PJS
