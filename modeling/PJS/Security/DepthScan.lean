import PJS.Lib.Marked
import PJS.Stream.Priority

/-! The scan for nesting depth that runs before a parser. On the beginning of a text it counts the
containers that are open there, whatever the strings hold. -/
namespace PJS

open JsonText

namespace SecurityValidator

/-- Validate JSON depth to prevent stack overflow. -/
def validateJsonDepth (maxAllowed depth : ℕ) : Except Error Unit :=
  if depth > maxAllowed then
    .error (.other s!"JSON nesting depth {depth} exceeds maximum allowed {maxAllowed}")
  else .ok ()

/-- The state of the scan. -/
structure DepthScan where
  depth : ℕ
  maxDepth : ℕ
  inString : Bool
  escaped : Bool

def DepthScan.start : DepthScan := ⟨0, 0, false, false⟩

/-- The state after a byte. -/
def DepthScan.advance (s : DepthScan) (byte : UInt8) : DepthScan :=
  if s.inString then
    if s.escaped then { s with escaped := false }
    else if byte = backslash then { s with escaped := true }
    else if byte = quote then { s with inString := false }
    else s
  else if byte = quote then { s with inString := true }
  else if byte = openBrace ∨ byte = openBracket then
    { s with depth := s.depth + 1, maxDepth := max s.maxDepth (s.depth + 1) }
  else if byte = closeBrace ∨ byte = closeBracket then { s with depth := s.depth - 1 }
  else s

/-- Whether a byte opens a container. -/
def DepthScan.opens (s : DepthScan) (byte : UInt8) : Bool :=
  !s.inString && (byte == openBrace || byte == openBracket)

/-- A byte that opens a container is followed by the check of the depth. -/
def scanByte (maxAllowed : ℕ) (s : DepthScan) (byte : UInt8) : Except Error DepthScan :=
  if s.opens byte then do
    validateJsonDepth maxAllowed (s.advance byte).maxDepth
    return s.advance byte
  else .ok (s.advance byte)

/-- Validate JSON nesting depth by scanning raw bytes ahead of parsing. -/
def validateJsonDepthBytes (maxAllowed : ℕ) (input : List UInt8) : Except Error Unit := do
  let _ ← input.foldlM (scanByte maxAllowed) DepthScan.start

end SecurityValidator

namespace SecurityValidator

/-- The state after some bytes. -/
def scan (s : DepthScan) (bytes : List UInt8) : DepthScan := bytes.foldl DepthScan.advance s

theorem scan_append (s : DepthScan) (bytes rest : List UInt8) :
    scan s (bytes ++ rest) = scan (scan s bytes) rest := List.foldl_append

section Limit

variable {maxAllowed : ℕ}

theorem advance_of_opens {s : DepthScan} {byte : UInt8} (h : s.opens byte = true) :
    s.advance byte =
      { s with depth := s.depth + 1, maxDepth := max s.maxDepth (s.depth + 1) } := by
  unfold DepthScan.opens at h
  simp only [Bool.and_eq_true, Bool.not_eq_true', Bool.or_eq_true, beq_iff_eq] at h
  obtain ⟨hin, hbyte⟩ := h
  have hquote : byte ≠ quote := by
    rintro rfl
    revert hbyte
    decide
  unfold DepthScan.advance
  rw [hin, if_neg Bool.false_ne_true, if_neg hquote, if_pos hbyte]

/-- Any other byte takes the scan no deeper. -/
theorem advance_of_not_opens {s : DepthScan} {byte : UInt8} (h : s.opens byte = false) :
    (s.advance byte).maxDepth = s.maxDepth ∧ (s.advance byte).depth ≤ s.depth := by
  have hbyte : s.inString = false → ¬(byte = openBrace ∨ byte = openBracket) := by
    intro hin hbyte
    rw [DepthScan.opens, hin] at h
    rcases hbyte with rfl | rfl <;> exact absurd h (by decide)
  unfold DepthScan.advance
  split_ifs with h1 h2 h3 h4 h5 h6 h7
  · exact ⟨rfl, le_rfl⟩
  · exact ⟨rfl, le_rfl⟩
  · exact ⟨rfl, le_rfl⟩
  · exact ⟨rfl, le_rfl⟩
  · exact ⟨rfl, le_rfl⟩
  · exact absurd h6 (hbyte (by simpa using h1))
  · exact ⟨rfl, Nat.sub_le _ 1⟩
  · exact ⟨rfl, le_rfl⟩

theorem depth_le_advance {s : DepthScan} (h : s.depth ≤ s.maxDepth) (byte : UInt8) :
    (s.advance byte).depth ≤ (s.advance byte).maxDepth := by
  cases hopens : s.opens byte with
  | true =>
    rw [advance_of_opens hopens]
    exact le_max_right _ _
  | false =>
    obtain ⟨hmax, hdepth⟩ := advance_of_not_opens hopens
    rw [hmax]
    exact hdepth.trans h

/-- The check after a byte fails exactly if the byte takes the depth past the limit. -/
theorem scanByte_eq {s : DepthScan} (hmax : s.maxDepth ≤ maxAllowed) (byte : UInt8) :
    (scanByte maxAllowed s byte = .ok (s.advance byte) ∧
      (s.advance byte).maxDepth ≤ maxAllowed) ∨
    (∃ e, scanByte maxAllowed s byte = .error e) ∧ maxAllowed < (s.advance byte).depth := by
  unfold scanByte
  cases hopens : s.opens byte with
  | false =>
    obtain ⟨hmax', -⟩ := advance_of_not_opens hopens
    exact Or.inl ⟨rfl, hmax'.trans_le hmax⟩
  | true =>
    unfold validateJsonDepth
    rw [if_pos rfl, advance_of_opens hopens]
    by_cases hlimit : max s.maxDepth (s.depth + 1) > maxAllowed
    · rw [if_pos hlimit]
      exact Or.inr ⟨⟨_, rfl⟩, by simp only; omega⟩
    · rw [if_neg hlimit]
      exact Or.inl ⟨rfl, by simp only; omega⟩

/-- The scan accepts exactly if it is nowhere deeper than the limit. -/
theorem foldlM_scanByte_iff {s : DepthScan} (hdepth : s.depth ≤ s.maxDepth)
    (hmax : s.maxDepth ≤ maxAllowed) (input : List UInt8) :
    (∃ s', input.foldlM (scanByte maxAllowed) s = .ok s') ↔
      ∀ p, p <+: input → (scan s p).depth ≤ maxAllowed := by
  induction input generalizing s with
  | nil =>
    refine iff_of_true ⟨s, rfl⟩ fun p hp => ?_
    rw [List.prefix_nil.mp hp]
    exact hdepth.trans hmax
  | cons byte input ih =>
    rw [List.foldlM_cons]
    rcases scanByte_eq hmax byte with ⟨hok, hmax'⟩ | ⟨⟨e, he⟩, hdeep⟩
    · rw [hok]
      change (∃ s', input.foldlM (scanByte maxAllowed) (s.advance byte) = .ok s') ↔ _
      rw [ih (depth_le_advance hdepth byte) hmax']
      constructor
      · intro h p hp
        cases p with
        | nil => exact hdepth.trans hmax
        | cons b p =>
          obtain ⟨rfl, hp'⟩ := List.cons_prefix_cons.mp hp
          exact h p hp'
      · exact fun h p hp => h (byte :: p) (List.cons_prefix_cons.mpr ⟨rfl, hp⟩)
    · rw [he]
      refine iff_of_false (fun ⟨s', hs'⟩ => by cases hs') fun h => ?_
      have hle := h [byte] (List.cons_prefix_cons.mpr ⟨rfl, List.nil_prefix⟩)
      exact absurd hle (not_le.mpr hdeep)

theorem validateJsonDepthBytes_iff (input : List UInt8) :
    validateJsonDepthBytes maxAllowed input = .ok () ↔
      ∀ p, p <+: input → (scan .start p).depth ≤ maxAllowed := by
  rw [← foldlM_scanByte_iff (le_refl _) (Nat.zero_le _)]
  unfold validateJsonDepthBytes
  cases input.foldlM (scanByte maxAllowed) DepthScan.start with
  | error e => exact iff_of_false (fun h => by cases h) fun ⟨s', hs'⟩ => by cases hs'
  | ok s => exact iff_of_true rfl ⟨s, rfl⟩

end Limit

section Tracking

/-- Between two tokens, with `d` containers open. -/
def Ready (d : ℕ) (s : DepthScan) : Prop := s.depth = d ∧ s.inString = false ∧ s.escaped = false

/-- The scan keeps the depth `d` all through the bytes. -/
structure Steady (d : ℕ) (s : DepthScan) (bytes : List UInt8) (s' : DepthScan) : Prop where
  scan_eq : scan s bytes = s'
  depth : ∀ p, p <+: bytes → (scan s p).depth = d

theorem Steady.nil {d : ℕ} {s : DepthScan} (h : s.depth = d) : Steady d s [] s :=
  ⟨rfl, fun p hp => by rw [List.prefix_nil.mp hp]; exact h⟩

theorem Steady.cons {d : ℕ} {s s' : DepthScan} {byte : UInt8} {bytes : List UInt8}
    (hs : s.depth = d) (h : Steady d (s.advance byte) bytes s') : Steady d s (byte :: bytes) s' := by
  refine ⟨h.scan_eq, fun p hp => ?_⟩
  cases p with
  | nil => exact hs
  | cons b p =>
    obtain ⟨rfl, hp'⟩ := List.cons_prefix_cons.mp hp
    exact h.depth p hp'

/-- No quote and no bracket. -/
def Neutral (byte : UInt8) : Prop :=
  byte ≠ quote ∧ byte ≠ openBrace ∧ byte ≠ openBracket ∧ byte ≠ closeBrace ∧ byte ≠ closeBracket

instance (byte : UInt8) : Decidable (Neutral byte) := inferInstanceAs (Decidable (_ ∧ _))

theorem advance_neutral {s : DepthScan} (hs : s.inString = false) {byte : UInt8}
    (h : Neutral byte) : s.advance byte = s := by
  unfold DepthScan.advance
  simp [hs, h.1, h.2.1, h.2.2.1, h.2.2.2.1, h.2.2.2.2]

theorem steady_neutral {d : ℕ} {s : DepthScan} (hs : Ready d s) {bytes : List UInt8}
    (h : ∀ b ∈ bytes, Neutral b) : Steady d s bytes s := by
  induction bytes with
  | nil => exact .nil hs.1
  | cons b bytes ih =>
    rw [List.forall_mem_cons] at h
    have hrest := ih h.2
    rw [← advance_neutral hs.2.1 h.1] at hrest
    have hcons := Steady.cons hs.1 hrest
    rwa [advance_neutral hs.2.1 h.1] at hcons

/-- Inside a string, where no byte is escaped. -/
structure Inside (d : ℕ) (s : DepthScan) : Prop where
  depth : s.depth = d
  inString : s.inString = true
  escaped : s.escaped = false

theorem Inside.plain {d : ℕ} {s : DepthScan} (h : Inside d s) {byte : UInt8} (hq : byte ≠ quote)
    (hs : byte ≠ backslash) : s.advance byte = s := by
  unfold DepthScan.advance
  simp [h.inString, h.escaped, hq, hs]

/-- A backslash and what it escapes. -/
theorem Inside.escape {d : ℕ} {s : DepthScan} (h : Inside d s) (byte : UInt8) :
    (s.advance backslash).depth = d ∧ (s.advance backslash).advance byte = s := by
  obtain ⟨depth, maxDepth, inString, escaped⟩ := s
  obtain ⟨hd, hin, hesc⟩ := h
  simp only at hd hin hesc
  subst hd hin hesc
  exact ⟨rfl, rfl⟩

theorem steady_plain {d : ℕ} {s s' : DepthScan} (hs : Inside d s) {bytes rest : List UInt8}
    (h : ∀ b ∈ bytes, b ≠ quote ∧ b ≠ backslash) (hrest : Steady d s rest s') :
    Steady d s (bytes ++ rest) s' := by
  induction bytes with
  | nil => exact hrest
  | cons b bytes ih =>
    rw [List.forall_mem_cons] at h
    refine Steady.cons hs.depth ?_
    rw [hs.plain h.1.1 h.1.2]
    exact ih h.2

/-- The body of a string is passed over as a whole. -/
theorem steady_body {d : ℕ} {s s' : DepthScan} (hs : Inside d s) {body rest : List UInt8}
    (h : Body body) (hrest : Steady d s rest s') : Steady d s (body ++ rest) s' := by
  induction h with
  | nil => exact hrest
  | plain _ hq hb _ ih =>
    refine Steady.cons hs.depth ?_
    rw [hs.plain hq hb]
    exact ih
  | @escape b e body he _ ih =>
    obtain ⟨hdepth, hback⟩ := hs.escape b
    refine Steady.cons hs.depth (Steady.cons hdepth ?_)
    rw [hback]
    exact ih
  | @unicode b₁ b₂ b₃ b₄ v body hv _ ih =>
    obtain ⟨hdepth, hback⟩ := hs.escape 0x75
    have hplain := steady_plain hs (hex4_plain hv) ih
    refine Steady.cons hs.depth (Steady.cons hdepth ?_)
    rw [hback]
    exact hplain

theorem advance_quote {d : ℕ} {s : DepthScan} (hs : Ready d s) :
    Inside d (s.advance quote) ∧ (s.advance quote).advance quote = s := by
  obtain ⟨depth, maxDepth, inString, escaped⟩ := s
  obtain ⟨hd, hin, hesc⟩ := hs
  simp only at hd hin hesc
  subst hd hin hesc
  exact ⟨⟨rfl, rfl, rfl⟩, rfl⟩

theorem steady_string {d : ℕ} {s : DepthScan} (hs : Ready d s) {body : List UInt8}
    (h : Body body) : Steady d s (quote :: (body ++ [quote])) s := by
  obtain ⟨hinside, hback⟩ := advance_quote hs
  refine Steady.cons hs.1 (steady_body hinside h (Steady.cons hinside.depth ?_))
  rw [hback]
  exact .nil hs.1

/-- A kind of byte that neither a quote nor a bracket is. -/
theorem neutral_of_kind {kind : UInt8 → Bool} {b : UInt8} (h : kind b = true)
    (hkind : ∀ x ∈ [quote, openBrace, openBracket, closeBrace, closeBracket], kind x = false) :
    Neutral b := by
  have hne : ∀ x ∈ [quote, openBrace, openBracket, closeBrace, closeBracket], b ≠ x := by
    rintro x hx rfl
    rw [hkind b hx] at h
    cases h
  simp only [List.forall_mem_cons] at hne
  exact ⟨hne.1, hne.2.1, hne.2.2.1, hne.2.2.2.1, hne.2.2.2.2.1⟩

theorem neutral_of_isNumber {text : List UInt8} (h : IsNumber text) : ∀ b ∈ text, Neutral b :=
  h.forall_mem (fun _ hdigit => neutral_of_kind hdigit (by decide +kernel)) (by decide +kernel)

theorem steady_scalar {d : ℕ} {s : DepthScan} (hs : Ready d s) {text : List UInt8}
    (h : Scalar Body text) : Steady d s text s := by
  cases h with
  | true => exact steady_neutral hs (by decide +kernel)
  | false => exact steady_neutral hs (by decide +kernel)
  | null => exact steady_neutral hs (by decide +kernel)
  | number h => exact steady_neutral hs (neutral_of_isNumber h)
  | string h => exact steady_string hs h

/-- The scan counts what the marks say, and is between two tokens in the end. -/
structure Tracks (d d' : ℕ) (m : Marks) : Prop where
  last : m.last d = d'
  depth : ∀ s, Ready d s → ∀ q, q <+: m → (scan s (Marks.bytes q)).depth = Marks.last d q
  ready : ∀ s, Ready d s → Ready d' (scan s m.bytes)

theorem last_append (d : ℕ) (m m' : Marks) : (m ++ m').last d = m'.last (m.last d) := by
  unfold Marks.last
  rw [List.getLast?_append]
  cases m'.getLast? <;> rfl

theorem last_mark (d : ℕ) (bytes : List UInt8) : (mark d bytes).last d = d := by
  unfold Marks.last
  cases h : (mark d bytes).getLast? with
  | none => rfl
  | some e =>
    obtain ⟨b, -, rfl⟩ := List.mem_map.mp (List.mem_of_getLast? h)
    rfl

/-- A prefix ends in the first part or reaches into the second. -/
theorem prefix_append_cases {α : Type} {q m m' : List α} (h : q <+: m ++ m') :
    q <+: m ∨ ∃ q', q = m ++ q' ∧ q' <+: m' := by
  rcases List.prefix_or_prefix_of_prefix h (List.prefix_append m m') with hq | ⟨q', rfl⟩
  · exact Or.inl hq
  · exact Or.inr ⟨q', rfl, (List.prefix_append_right_inj m).mp h⟩

theorem Tracks.append {d d' d'' : ℕ} {m m' : Marks} (h : Tracks d d' m) (h' : Tracks d' d'' m') :
    Tracks d d'' (m ++ m') where
  last := by rw [last_append, h.last, h'.last]
  depth s hs q hq := by
    rcases prefix_append_cases hq with hq' | ⟨q', rfl, hq'⟩
    · exact h.depth s hs q hq'
    · rw [bytes_append, scan_append, last_append, h.last]
      exact h'.depth _ (h.ready s hs) q' hq'
  ready s hs := by
    rw [bytes_append, scan_append]
    exact h'.ready _ (h.ready s hs)

/-- Bytes that the scan passes over are marked with one depth. -/
theorem Tracks.mark {d : ℕ} {bytes : List UInt8} (h : ∀ s, Ready d s → Steady d s bytes s) :
    Tracks d d (mark d bytes) where
  last := last_mark d bytes
  depth s hs q hq := by
    obtain ⟨p, hp, rfl⟩ : ∃ p, p <+: bytes ∧ JsonText.mark d p = q := by
      refine ⟨bytes.take q.length, List.take_prefix _ _, ?_⟩
      rw [List.prefix_iff_eq_take.mp hq]
      simp [JsonText.mark, List.map_take]
    rw [bytes_mark, last_mark]
    exact (h s hs).depth p hp
  ready s hs := by
    rw [bytes_mark, (h s hs).scan_eq]
    exact hs

theorem Tracks.blank {d : ℕ} {ws : List UInt8} (h : Blank ws) : Tracks d d (JsonText.mark d ws) :=
  .mark fun _ hs => steady_neutral hs fun b hb => neutral_of_kind (h b hb) (by decide +kernel)

/-- A byte that changes the depth as its mark says. -/
theorem Tracks.byte {d d' : ℕ} {b : UInt8} (h : ∀ s, Ready d s → Ready d' (s.advance b)) :
    Tracks d d' [(b, d')] where
  last := rfl
  depth s hs q hq := by
    cases q with
    | nil => exact hs.1
    | cons e q =>
      obtain ⟨rfl, hq'⟩ := List.cons_prefix_cons.mp hq
      rw [List.prefix_nil.mp hq']
      exact (h s hs).1
  ready s hs := h s hs

theorem Tracks.neutral {d : ℕ} {b : UInt8} (h : Neutral b) : Tracks d d [(b, d)] :=
  .byte fun s hs => by rwa [advance_neutral hs.2.1 h]

theorem Tracks.opens {d : ℕ} {b : UInt8} (h : b = openBrace ∨ b = openBracket) :
    Tracks d (d + 1) [(b, d + 1)] :=
  .byte fun s hs => by
    obtain ⟨depth, maxDepth, inString, escaped⟩ := s
    obtain ⟨hd, hin, hesc⟩ := hs
    simp only at hd hin hesc
    subst hd hin hesc
    rcases h with rfl | rfl <;> exact ⟨rfl, rfl, rfl⟩

theorem Tracks.closes {d : ℕ} {b : UInt8} (h : b = closeBrace ∨ b = closeBracket) :
    Tracks (d + 1) d [(b, d)] :=
  .byte fun s hs => by
    obtain ⟨depth, maxDepth, inString, escaped⟩ := s
    obtain ⟨hd, hin, hesc⟩ := hs
    simp only at hd hin hesc
    subst hd hin hesc
    rcases h with rfl | rfl <;> exact ⟨rfl, rfl, rfl⟩

theorem Tracks.padded {d : ℕ} {before after : List UInt8} {m : Marks} (hb : Blank before)
    (ha : Blank after) (h : Tracks d d m) :
    Tracks d d (JsonText.mark d before ++ (m ++ JsonText.mark d after)) :=
  (Tracks.blank hb).append (h.append (.blank ha))

theorem Tracks.enclosed {d : ℕ} {o c : UInt8} {m : Marks} (ho : o = openBrace ∨ o = openBracket)
    (hc : c = closeBrace ∨ c = closeBracket) (h : Tracks (d + 1) (d + 1) m) :
    Tracks d d ((o, d + 1) :: (m ++ [(c, d)])) :=
  (Tracks.opens ho).append (h.append (.closes hc))

/-- The scan counts what the marks of a text say. -/
theorem tracks_of_marked {part : Part} {d : ℕ} {m : Marks}
    (h : Marked Body IsString part d m) : Tracks d d m := by
  induction h with
  | scalar h => exact .mark fun _ hs => steady_scalar hs h
  | emptyArray hw => exact .enclosed (Or.inr rfl) (Or.inr rfl) (.blank hw)
  | array _ ih => exact .enclosed (Or.inr rfl) (Or.inr rfl) ih
  | emptyObject hw => exact .enclosed (Or.inl rfl) (Or.inl rfl) (.blank hw)
  | object _ ih => exact .enclosed (Or.inl rfl) (Or.inl rfl) ih
  | lastItem hb ha _ ih => exact .padded hb ha ih
  | item hb ha _ _ ih ihrest =>
    exact (Tracks.padded hb ha ih).append ((Tracks.neutral (by decide)).append ihrest)
  | lastMember hkb hka hvb hva _ _ _ ihk ihv =>
    exact (Tracks.padded hkb hka ihk).append
      ((Tracks.neutral (by decide)).append (.padded hvb hva ihv))
  | member hkb hka hvb hva _ _ _ _ ihk ihv ihrest =>
    exact ((Tracks.padded hkb hka ihk).append
      ((Tracks.neutral (by decide)).append (.padded hvb hva ihv))).append
      ((Tracks.neutral (by decide)).append ihrest)

end Tracking

section Texts

/-- A JSON text: a value that nests at most `n` containers, between white space. -/
def IsText (n : ℕ) (text : List UInt8) : Prop :=
  ∃ p : Padded, p.Blank ∧ JsonText.Value Body IsString n p.text ∧ p.bytes = text

/-- A JSON text with its marks. -/
inductive TextMarks : Marks → Prop
  | mk {before after : List UInt8} {m : Marks} (hb : Blank before) (ha : Blank after)
      (h : Marked Body IsString .value 0 m) : TextMarks (mark 0 before ++ (m ++ mark 0 after))

/-- How many containers are open after the first `i` bytes. -/
def openAfter (m : Marks) (i : ℕ) : ℕ := Marks.last 0 (m.take i)

theorem IsText.hasMarks {n : ℕ} {text : List UInt8} (h : IsText n text) :
    ∃ m, TextMarks m ∧ m.bytes = text ∧ m.Bounded n := by
  obtain ⟨p, ⟨hb, ha⟩, hvalue, rfl⟩ := h
  obtain ⟨m, hm, hbytes, hbound⟩ := hvalue.hasMarks 0
  rw [Nat.zero_add] at hbound
  refine ⟨_, .mk hb ha hm, by simp [hbytes, Padded.bytes], ?_⟩
  simp only [bounded_append]
  exact ⟨bounded_mark (Nat.zero_le n) _, hbound, bounded_mark (Nat.zero_le n) _⟩

/-- Marks that stay below `n` are those of a text that nests at most `n` containers. -/
theorem TextMarks.isText {n : ℕ} {m : Marks} (h : TextMarks m) (hbound : m.Bounded n) :
    IsText n m.bytes := by
  obtain ⟨hb, ha, hm⟩ := h
  simp only [bounded_append] at hbound
  have hbelow := hbound.2.1
  rw [← Nat.zero_add n] at hbelow
  refine ⟨⟨_, _, _⟩, ⟨hb, ha⟩, hm.nested hbelow, ?_⟩
  rw [bytes_append, bytes_append, bytes_mark, bytes_mark]
  rfl

theorem TextMarks.tracks {m : Marks} (h : TextMarks m) : Tracks 0 0 m := by
  obtain ⟨hb, ha, hm⟩ := h
  exact .padded hb ha (tracks_of_marked hm)

theorem ready_start : Ready 0 .start := ⟨rfl, rfl, rfl⟩

/-- On the beginning of a text the scan has counted the containers that are open. -/
theorem depth_of_beginning {m : Marks} (h : TextMarks m) {p : List UInt8} (hp : p <+: m.bytes) :
    (scan .start p).depth = openAfter m p.length := by
  have hdepth := h.tracks.depth .start ready_start (m.take p.length) (List.take_prefix _ _)
  have hbytes : Marks.bytes (m.take p.length) = p := by
    have htake := List.prefix_iff_eq_take.mp hp
    rw [Marks.bytes, List.map_take]
    exact htake.symm
  rwa [hbytes] at hdepth

/-- The marks are bounded if the containers that are open after every prefix are. -/
theorem bounded_of_openAfter {m : Marks} {n : ℕ}
    (h : ∀ i ≤ m.length, openAfter m i ≤ n) : m.Bounded n := by
  intro e he
  obtain ⟨i, hi, rfl⟩ := List.mem_iff_getElem.mp he
  have hlast := h (i + 1) (by omega)
  unfold openAfter Marks.last at hlast
  rw [List.take_succ_eq_append_getElem hi, List.getLast?_concat] at hlast
  exact hlast

/-- The scan is exact: on texts it decides the bound on the nesting, and on anything it accepts, no
beginning of a text has more containers open than the limit. -/
theorem validateJsonDepthBytes_exact (maxDepth : ℕ) :
    (∀ n text, IsText n text →
      (validateJsonDepthBytes maxDepth text = .ok () ↔ IsText maxDepth text)) ∧
    (∀ input, validateJsonDepthBytes maxDepth input = .ok () →
      ∀ p, p <+: input → ∀ m, TextMarks m → p <+: m.bytes → openAfter m p.length ≤ maxDepth) ∧
    (∀ n text, IsText n text → ∃ m, TextMarks m ∧ m.bytes = text) := by
  refine ⟨fun n text htext => ?_, fun input hinput p hp m hm hpm => ?_, fun n text htext => ?_⟩
  · obtain ⟨m, hm, rfl, -⟩ := htext.hasMarks
    rw [validateJsonDepthBytes_iff]
    constructor
    · intro h
      refine hm.isText (bounded_of_openAfter fun i hi => ?_)
      have hlen : (m.bytes.take i).length = i := by
        rw [List.length_take]
        unfold Marks.bytes
        rw [List.length_map]
        omega
      have hle := h (m.bytes.take i) (List.take_prefix _ _)
      rwa [depth_of_beginning hm (List.take_prefix _ _), hlen] at hle
    · intro h p hp
      obtain ⟨m', hm', hbytes, hbound⟩ := h.hasMarks
      rw [depth_of_beginning hm' (hbytes ▸ hp)]
      unfold openAfter Marks.last
      cases hlast : (m'.take p.length).getLast? with
      | none => exact Nat.zero_le maxDepth
      | some e => exact hbound e (List.mem_of_mem_take (List.mem_of_getLast? hlast))
  · rw [← depth_of_beginning hm hpm]
    exact validateJsonDepthBytes_iff input |>.mp hinput p hp
  · obtain ⟨m, hm, hbytes, -⟩ := htext.hasMarks
    exact ⟨m, hm, hbytes⟩

end Texts

end SecurityValidator

end PJS
