import PJS.Parser.HintLeaves

/-! The walk of a truncated input. The tokenizer reads the tokens that are there whole and fails at
the end of the input; the walk then stops short with what it has, the open containers closed. -/
namespace PJS

section CutDoc

/-- What is there of a key and its colon when the input ends. -/
inductive KeyEnd where
  | missing
  | broken
  | uncoloned (key : String)

namespace KeyEnd

def tokens : KeyEnd → List JsonToken
  | .uncoloned key => [.scalar (.string key)]
  | _ => []

/-- The kind of the token that the input ends in. -/
def kind : KeyEnd → Option Peek
  | .broken => some .string
  | _ => none

end KeyEnd

/-- A document that the input ends in: before a value, inside a scalar, after a value, or inside a
container. -/
inductive CutDoc where
  | missing
  | broken (s : TokenScalar)
  | whole (d : TokenDoc)
  | array (done : List TokenDoc) (last : CutDoc)
  | object (done : List (String × TokenDoc)) (key : String) (last : CutDoc)
  | objectKey (done : List (String × TokenDoc)) (key : KeyEnd)

def beforeItems : List TokenDoc → List JsonToken → List JsonToken
  | [], ts => ts
  | d :: done, ts => tokens d ++ .comma :: beforeItems done ts

def beforeFields : List (String × TokenDoc) → List JsonToken → List JsonToken
  | [], ts => ts
  | (key, v) :: done, ts => keyTokens key ++ (tokens v ++ .comma :: beforeFields done ts)

namespace CutDoc

/-- The tokens that are there whole. -/
def tokens : CutDoc → List JsonToken
  | .missing | .broken _ => []
  | .whole d => PJS.tokens d
  | .array done last => .openArray :: beforeItems done last.tokens
  | .object done key last => .openObject :: beforeFields done (keyTokens key ++ last.tokens)
  | .objectKey done key => .openObject :: beforeFields done key.tokens

/-- The kind of the token that the input ends in. -/
def kind : CutDoc → Option Peek
  | .broken s => some s.peek
  | .array _ last => last.kind
  | .object _ _ last => last.kind
  | .objectKey _ key => key.kind
  | _ => none

/-- The tokens that a longer input has as well: a scalar that the input ends with may go on. -/
def shared : CutDoc → List JsonToken
  | .missing | .broken _ | .whole (.scalar _) => []
  | .whole d => PJS.tokens d
  | .array done last => .openArray :: beforeItems done last.shared
  | .object done key last => .openObject :: beforeFields done (keyTokens key ++ last.shared)
  | .objectKey done _ => .openObject :: beforeFields done []

/-- The kind of the value that is cut. -/
def peek : CutDoc → Option Peek
  | .missing => none
  | .broken s => some s.peek
  | .whole d => some (docPeek d)
  | .array _ _ => some .array
  | .object _ _ _ | .objectKey _ _ => some .object

/-- The document that is read: what is open is closed, and a scalar that is cut short is a null. -/
def closed : CutDoc → Option TokenDoc
  | .missing => none
  | .broken _ => some (.scalar .null)
  | .whole d => some d
  | .array done last => some (.array (done ++ last.closed.toList))
  | .object done key last => some (.object (done ++ last.closed.toList.map fun v => (key, v)))
  | .objectKey done _ => some (.object done)

theorem closed_of_peek_none {c : CutDoc} (h : c.peek = none) : c.closed = none := by
  cases c with
  | missing => rfl
  | _ => cases h

theorem exists_closed {c : CutDoc} {p : Peek} (h : c.peek = some p) : ∃ d, c.closed = some d := by
  cases c with
  | missing => cases h
  | _ => exact ⟨_, rfl⟩

end CutDoc

/-- The kind of the next element. -/
def itemPeek : List TokenDoc → CutDoc → Option Peek
  | [], last => last.peek
  | d :: _, _ => some (docPeek d)

/-- How the tokens before the end of the input begin. -/
inductive Starts : List JsonToken → Option Peek → Option Peek → Prop
  | token {t : JsonToken} {ts : List JsonToken} {p : Peek} (kind : Option Peek)
    (h : t.peek? = some p) : Starts (t :: ts) kind (some p)
  | broken (s : TokenScalar) : Starts [] (some s.peek) (some s.peek)
  | missing : Starts [] none none

theorem starts_tokens (d : TokenDoc) (ts : List JsonToken) (kind : Option Peek) :
    Starts (tokens d ++ ts) kind (some (docPeek d)) := by
  obtain ⟨t, rest, hd, ht⟩ := exists_tokens d
  rw [hd]
  exact .token kind ht

theorem CutDoc.starts (c : CutDoc) : Starts c.tokens c.kind c.peek := by
  cases c with
  | missing => exact .missing
  | broken s => exact .broken s
  | whole d =>
    have h := starts_tokens d [] none
    rw [List.append_nil] at h
    exact h
  | array done last => exact .token _ rfl
  | object done key last => exact .token _ rfl
  | objectKey done key => exact .token _ rfl

theorem starts_beforeItems (done : List TokenDoc) (last : CutDoc) :
    Starts (beforeItems done last.tokens) last.kind (itemPeek done last) := by
  cases done with
  | nil => exact last.starts
  | cons d done => exact starts_tokens d _ _

end CutDoc

section Tokenizer

variable {σ : Type}

open JiterPartialParser (isPartialTolerated)

/-- What the documentation of the tokenizer promises where the input ends. `Last s ts kind` says
that `ts` are the tokens still to be read in the state `s` that are there whole, and that the input
ends after them, inside a token of that kind if there is one. -/
structure Jiter.Ends (jiter : Jiter σ) (Last : σ → List JsonToken → Option Peek → Prop) :
    Prop where
  reads : ∀ kind, jiter.Reads fun s ts => Last s ts kind
  peek_end : ∀ {s}, Last s [] none →
    ∃ e s', jiter.peek s = (.error e, s') ∧ e.errorType = .eofWhileParsingValue
  peek_broken : ∀ {s} {t : TokenScalar}, Last s [] (some t.peek) →
    ∃ s', jiter.peek s = (.ok t.peek, s') ∧ Last s' [] (some t.peek)
  knownNull_broken : ∀ {s}, Last s [] (some .null) →
    ∃ e s', jiter.knownNull s = (.error e, s') ∧ e.errorType = .eofWhileParsingValue
  knownBool_broken : ∀ {s b}, Last s [] (some (TokenScalar.bool b).peek) →
    ∃ e s', jiter.knownBool (TokenScalar.bool b).peek s = (.error e, s') ∧
      e.errorType = .eofWhileParsingValue
  knownNumber_broken : ∀ {s}, Last s [] (some .number) →
    ∃ e s', jiter.knownNumber .number s = (.error e, s') ∧ e.errorType = .eofWhileParsingValue
  knownStr_broken : ∀ {s}, Last s [] (some .string) →
    ∃ e s', jiter.knownStr s = (.error e, s') ∧ e.errorType = .eofWhileParsingString
  knownArray_end : ∀ {s}, Last s [.openArray] none →
    ∃ e s', jiter.knownArray s = (.error e, s') ∧ isPartialTolerated e = true
  knownArray_broken : ∀ {s} {t : TokenScalar}, Last s [.openArray] (some t.peek) →
    ∃ s', jiter.knownArray s = (.ok (some t.peek), s') ∧ Last s' [] (some t.peek)
  arrayStep_end : ∀ {s}, Last s [] none →
    ∃ e s', jiter.arrayStep s = (.error e, s') ∧ isPartialTolerated e = true
  arrayStep_comma : ∀ {s}, Last s [.comma] none →
    ∃ e s', jiter.arrayStep s = (.error e, s') ∧ isPartialTolerated e = true
  arrayStep_broken : ∀ {s} {t : TokenScalar}, Last s [.comma] (some t.peek) →
    ∃ s', jiter.arrayStep s = (.ok (some t.peek), s') ∧ Last s' [] (some t.peek)
  knownObject_end : ∀ {s} (key : KeyEnd), Last s (.openObject :: key.tokens) key.kind →
    ∃ e s', jiter.knownObject s = (.error e, s') ∧ isPartialTolerated e = true
  nextKey_end : ∀ {s}, Last s [] none →
    ∃ e s', jiter.nextKey s = (.error e, s') ∧ isPartialTolerated e = true
  nextKey_comma : ∀ {s} (key : KeyEnd), Last s (.comma :: key.tokens) key.kind →
    ∃ e s', jiter.nextKey s = (.error e, s') ∧ isPartialTolerated e = true

variable {jiter : Jiter σ} {Last : σ → List JsonToken → Option Peek → Prop}

theorem Jiter.Reads.peek_doc {At : σ → List JsonToken → Prop} (hj : jiter.Reads At) {d : TokenDoc}
    {s : σ} {ts : List JsonToken} (hs : At s (tokens d ++ ts)) :
    ∃ s', jiter.peek s = (.ok (docPeek d), s') ∧ At s' (tokens d ++ ts) := by
  obtain ⟨t, rest, hd, ht⟩ := exists_tokens d
  rw [hd] at hs ⊢
  exact hj.peek hs ht

theorem Jiter.Ends.peek_starts (hj : jiter.Ends Last) {s : σ} {ts : List JsonToken}
    {kind p : Option Peek} (hs : Last s ts kind) (h : Starts ts kind p) :
    (p = none ∧ ∃ e s', jiter.peek s = (.error e, s') ∧ e.errorType = .eofWhileParsingValue) ∨
      ∃ k s', p = some k ∧ jiter.peek s = (.ok k, s') ∧ Last s' ts kind := by
  cases h with
  | token _ ht =>
    obtain ⟨s', hpeek, hs'⟩ := (hj.reads kind).peek hs ht
    exact Or.inr ⟨_, s', rfl, hpeek, hs'⟩
  | broken t =>
    obtain ⟨s', hpeek, hs'⟩ := hj.peek_broken hs
    exact Or.inr ⟨_, s', rfl, hpeek, hs'⟩
  | missing => exact Or.inl ⟨rfl, hj.peek_end hs⟩

theorem Jiter.Ends.knownArray_starts (hj : jiter.Ends Last) {s : σ} {ts : List JsonToken}
    {kind p : Option Peek} (hs : Last s (.openArray :: ts) kind) (h : Starts ts kind p) :
    (p = none ∧ ∃ e s', jiter.knownArray s = (.error e, s') ∧ isPartialTolerated e = true) ∨
      ∃ k s', p = some k ∧ jiter.knownArray s = (.ok (some k), s') ∧ Last s' ts kind := by
  cases h with
  | token _ ht =>
    obtain ⟨s', hstep, hs'⟩ := (hj.reads kind).knownArray hs ht
    exact Or.inr ⟨_, s', rfl, hstep, hs'⟩
  | broken t =>
    obtain ⟨s', hstep, hs'⟩ := hj.knownArray_broken hs
    exact Or.inr ⟨_, s', rfl, hstep, hs'⟩
  | missing => exact Or.inl ⟨rfl, hj.knownArray_end hs⟩

theorem Jiter.Ends.arrayStep_starts (hj : jiter.Ends Last) {s : σ} {ts : List JsonToken}
    {kind p : Option Peek} (hs : Last s (.comma :: ts) kind) (h : Starts ts kind p) :
    (p = none ∧ ∃ e s', jiter.arrayStep s = (.error e, s') ∧ isPartialTolerated e = true) ∨
      ∃ k s', p = some k ∧ jiter.arrayStep s = (.ok (some k), s') ∧ Last s' ts kind := by
  cases h with
  | token _ ht =>
    obtain ⟨s', hstep, hs'⟩ := (hj.reads kind).arrayStep hs ht
    exact Or.inr ⟨_, s', rfl, hstep, hs'⟩
  | broken t =>
    obtain ⟨s', hstep, hs'⟩ := hj.arrayStep_broken hs
    exact Or.inr ⟨_, s', rfl, hstep, hs'⟩
  | missing => exact Or.inl ⟨rfl, hj.arrayStep_comma hs⟩

end Tokenizer

namespace JiterPartialParser

section Loops

variable {σ : Type} (jiter : Jiter σ) (config : JiterConfig)

/-- How the loop over the elements goes on, by what stands after one. -/
def arrayRest (fuel depth : ℕ) (path : JsonPath) (items : List JsonData) (cursor : ℕ)
    (diagnostics : List ParseDiagnostic) :
    Except JiterError (Option Peek) × σ → Option (WalkOutcome × σ)
  | (.ok (some peek), s) => arrayLoop jiter config fuel peek depth path items diagnostics s
  | (.ok none, s) => some (.complete (.array items) (jiter.currentIndex s) diagnostics, s)
  | (.error e, s) =>
    if isPartialTolerated e then some (.truncated (.array items) cursor diagnostics, s)
    else some (.hard e, s)

/-- How it goes on after the walk of an element. -/
def afterItem (fuel depth : ℕ) (path : JsonPath) (items : List JsonData)
    (diagnostics : List ParseDiagnostic) : WalkOutcome × σ → Option (WalkOutcome × σ)
  | (.hard e, s) => some (.hard e, s)
  | (.truncated v cursor ds, s) =>
    some (.truncated (.array (items ++ [v])) cursor (diagnostics ++ ds), s)
  | (.complete v cursor ds, s) =>
    arrayRest jiter config fuel depth path (items ++ [v]) cursor (diagnostics ++ ds)
      (jiter.arrayStep s)

/-- How the loop over the fields goes on, by what stands after one. -/
def objectRest (fuel depth : ℕ) (path : JsonPath) (map : List (String × JsonData)) (cursor : ℕ)
    (diagnostics : List ParseDiagnostic) :
    Except JiterError (Option String) × σ → Option (WalkOutcome × σ)
  | (.ok (some key), s) => objectLoop jiter config fuel key depth path map cursor diagnostics s
  | (.ok none, s) => some (.complete (.object map) (jiter.currentIndex s) diagnostics, s)
  | (.error e, s) =>
    if isPartialTolerated e then some (.truncated (.object map) cursor diagnostics, s)
    else some (.hard e, s)

/-- How it goes on after the walk of a value. -/
def afterField (fuel : ℕ) (key : String) (depth : ℕ) (path : JsonPath)
    (map : List (String × JsonData)) (diagnostics : List ParseDiagnostic) :
    WalkOutcome × σ → Option (WalkOutcome × σ)
  | (.hard e, s) => some (.hard e, s)
  | (.truncated v cursor ds, s) =>
    some (.truncated (.object (Assoc.insert key v map)) cursor (diagnostics ++ ds), s)
  | (.complete v cursor ds, s) =>
    objectRest jiter config fuel depth path (Assoc.insert key v map) cursor (diagnostics ++ ds)
      (jiter.nextKey s)

variable {jiter config}

theorem arrayLoop_succ (fuel : ℕ) (peek : Peek) (depth : ℕ) (path : JsonPath)
    (items : List JsonData) (ds : List ParseDiagnostic) (s : σ) :
    arrayLoop jiter config (fuel + 1) peek depth path items ds s =
      (walkWithPeek jiter config fuel peek depth (path.appendIndex (UInt64.ofNat items.length))
        s).bind (afterItem jiter config fuel depth path items ds) := by
  rw [arrayLoop]
  rcases walkWithPeek jiter config fuel peek depth
    (path.appendIndex (UInt64.ofNat items.length)) s with _ | ⟨_ | _ | _, s₁⟩
  · rfl
  · simp only [Option.bind_some, afterItem]
    rcases jiter.arrayStep s₁ with ⟨_ | _ | _, s₂⟩ <;> rfl
  · rfl
  · rfl

theorem arrayLoop_eq_some {fuel : ℕ} {peek : Peek} {depth : ℕ} {path : JsonPath}
    {items : List JsonData} {ds : List ParseDiagnostic} {s : σ} {r : WalkOutcome × σ}
    (h : arrayLoop jiter config fuel peek depth path items ds s = some r) :
    ∃ n r₁, n < fuel ∧
      walkWithPeek jiter config n peek depth (path.appendIndex (UInt64.ofNat items.length)) s =
        some r₁ ∧ afterItem jiter config n depth path items ds r₁ = some r := by
  cases fuel with
  | zero =>
    rw [arrayLoop] at h
    cases h
  | succ fuel =>
    rw [arrayLoop_succ] at h
    obtain ⟨r₁, hr₁, h⟩ := Option.bind_eq_some_iff.mp h
    exact ⟨fuel, r₁, Nat.lt_succ_self fuel, hr₁, h⟩

theorem objectLoop_eq_some {fuel : ℕ} {key : String} {depth : ℕ} {path : JsonPath}
    {map : List (String × JsonData)} {cursorAfter : ℕ} {ds : List ParseDiagnostic} {s s₀ : σ}
    {peek : Peek} {r : WalkOutcome × σ} (hpeek : jiter.peek s = (.ok peek, s₀))
    (h : objectLoop jiter config fuel key depth path map cursorAfter ds s = some r) :
    ∃ n r₁, walkWithPeek jiter config n peek depth (childPath path key) s₀ = some r₁ ∧
      afterField jiter config n key depth path map (ds ++ duplicate path key map) r₁ = some r := by
  cases fuel with
  | zero =>
    rw [objectLoop] at h
    cases h
  | succ fuel =>
    simp only [objectLoop, hpeek] at h
    rcases hr₁ : walkWithPeek jiter config fuel peek depth (childPath path key) s₀ with
      _ | ⟨_ | _ | _, s₁⟩
    · rw [hr₁] at h
      cases h
    · refine ⟨fuel, _, hr₁, ?_⟩
      simp only [hr₁] at h
      rw [← h, afterField]
      rcases jiter.nextKey s₁ with ⟨_ | _ | _, s₂⟩ <;> rfl
    · refine ⟨fuel, _, hr₁, ?_⟩
      rwa [hr₁] at h
    · refine ⟨fuel, _, hr₁, ?_⟩
      rwa [hr₁] at h

theorem walkWithPeek_eq_some {fuel : ℕ} {peek : Peek} {depth : ℕ} {path : JsonPath} {s : σ}
    {r : WalkOutcome × σ} (h : walkWithPeek jiter config fuel peek depth path s = some r) :
    (∃ e, r = (.hard e, s)) ∨
      ∃ n, walkValue jiter config n peek (jiter.currentIndex s) depth path s = some r := by
  cases fuel with
  | zero =>
    rw [walkWithPeek] at h
    cases h
  | succ fuel =>
    rw [walkWithPeek] at h
    split_ifs at h
    · cases h
      exact Or.inl ⟨_, rfl⟩
    · exact Or.inr ⟨fuel, h⟩

theorem walkValue_array_eq_some {fuel pre depth : ℕ} {path : JsonPath} {s : σ}
    {r : WalkOutcome × σ} (h : walkValue jiter config fuel .array pre depth path s = some r) :
    ∃ n pre', arrayRest jiter config n (depth + 1) path [] pre' [] (jiter.knownArray s) =
      some r := by
  rcases fuel with _ | _ | fuel
  · rw [walkValue] at h
    cases h
  · rw [walkValue, walkArray] at h
    cases h
  · rw [walkValue, walkArray] at h
    refine ⟨fuel, jiter.currentIndex s, ?_⟩
    rw [← h]
    rcases jiter.knownArray s with ⟨_ | _ | _, s'⟩ <;> rfl

theorem walkValue_object_eq_some {fuel pre depth : ℕ} {path : JsonPath} {s : σ}
    {r : WalkOutcome × σ} (h : walkValue jiter config fuel .object pre depth path s = some r) :
    ∃ n pre', objectRest jiter config n (depth + 1) path [] pre' [] (jiter.knownObject s) =
      some r := by
  rcases fuel with _ | _ | fuel
  · rw [walkValue] at h
    cases h
  · rw [walkValue, walkObject] at h
    cases h
  · rw [walkValue, walkObject] at h
    refine ⟨fuel, jiter.currentIndex s, ?_⟩
    rw [← h]
    rcases jiter.knownObject s with ⟨_ | _ | _, s'⟩ <;> rfl

end Loops

section Reading

variable {σ : Type} {jiter : Jiter σ} {At : σ → List JsonToken → Prop} {config : JiterConfig}

/-- The value `v` has been read, with the tokens `ts` left, or the walk has failed. -/
inductive ReadsTo (At : σ → List JsonToken → Prop) (ts : List JsonToken) (v : JsonData) :
    WalkOutcome × σ → Prop
  | complete {cursor : ℕ} {ds : List ParseDiagnostic} {s : σ} (hs : At s ts) :
    ReadsTo At ts v (.complete v cursor ds, s)
  | hard (e : JiterError) (s : σ) : ReadsTo At ts v (.hard e, s)

/-- Where a walk of the document ends, it ends with its value. -/
def ReadsDoc (jiter : Jiter σ) (At : σ → List JsonToken → Prop) (config : JiterConfig)
    (d : TokenDoc) : Prop :=
  ∀ fuel depth path s rest r, At s (tokens d ++ rest) →
    walkWithPeek jiter config fuel (docPeek d) depth path s = some r →
    ReadsTo At rest (dataOf jiter.parseF64 d) r

theorem readsDoc_of_walkValue {d : TokenDoc}
    (h : ∀ {fuel pre depth : ℕ} {path : JsonPath} {s : σ} {rest : List JsonToken}
      {r : WalkOutcome × σ}, At s (tokens d ++ rest) →
      walkValue jiter config fuel (docPeek d) pre depth path s = some r →
      ReadsTo At rest (dataOf jiter.parseF64 d) r) : ReadsDoc jiter At config d := by
  intro fuel depth path s rest r hs hr
  rcases walkWithPeek_eq_some hr with ⟨e, rfl⟩ | ⟨n, hr⟩
  · exact .hard e s
  · exact h hs hr

theorem walkValue_scalar_reads (hj : jiter.Reads At) {t : TokenScalar} {fuel pre depth : ℕ}
    {path : JsonPath} {s : σ} {rest : List JsonToken} {r : WalkOutcome × σ}
    (hs : At s (.scalar t :: rest))
    (h : walkValue jiter config fuel t.peek pre depth path s = some r) :
    ReadsTo At rest (scalarData jiter.parseF64 t) r := by
  cases fuel with
  | zero =>
    rw [walkValue] at h
    cases h
  | succ fuel =>
    cases t with
    | null =>
      obtain ⟨s', hread, hs'⟩ := hj.knownNull hs
      simp only [TokenScalar.peek, walkValue, hread] at h
      cases h
      exact .complete hs'
    | bool b =>
      obtain ⟨s', hread, hs'⟩ := hj.knownBool hs
      cases b with
      | true =>
        simp only [TokenScalar.peek] at hread
        simp only [TokenScalar.peek, walkValue, hread] at h
        cases h
        exact .complete hs'
      | false =>
        simp only [TokenScalar.peek] at hread
        simp only [TokenScalar.peek, walkValue, hread] at h
        cases h
        exact .complete hs'
    | number n =>
      obtain ⟨s', hread, hs'⟩ := hj.knownNumber hs
      simp only [TokenScalar.peek, walkValue, walkNumber, hread] at h
      cases n with
      | int i =>
        cases h
        exact .complete hs'
      | bigInt b =>
        cases h
        exact .complete hs'
      | float f =>
        cases h
        exact .complete hs'
    | string str =>
      obtain ⟨s', hread, hs'⟩ := hj.knownStr hs
      simp only [TokenScalar.peek, walkValue, walkString, hread] at h
      cases h
      exact .complete hs'

theorem arrayLoop_reads (hj : jiter.Reads At) {x : TokenDoc} {xs : List TokenDoc}
    (hx : ∀ y ∈ x :: xs, ReadsDoc jiter At config y) {fuel depth : ℕ} {path : JsonPath}
    {items : List JsonData} {ds : List ParseDiagnostic} {s : σ} {rest : List JsonToken}
    {r : WalkOutcome × σ} (hs : At s (tokens x ++ (itemTokens xs ++ rest)))
    (h : arrayLoop jiter config fuel (docPeek x) depth path items ds s = some r) :
    ReadsTo At rest (.array (items ++ dataItems jiter.parseF64 (x :: xs))) r := by
  induction xs generalizing x items ds fuel s with
  | nil =>
    obtain ⟨n, r₁, -, hr₁, h⟩ := arrayLoop_eq_some h
    cases hx x List.mem_cons_self _ _ _ _ _ _ hs hr₁ with
    | complete hs₁ =>
      obtain ⟨s', hclose, hs'⟩ := hj.arrayStep_close hs₁
      rw [afterItem, hclose] at h
      cases h
      exact .complete hs'
    | hard e s₁ =>
      cases h
      exact .hard e s₁
  | cons y ys ih =>
    rw [List.forall_mem_cons] at hx
    obtain ⟨n, r₁, -, hr₁, h⟩ := arrayLoop_eq_some h
    cases hx.1 _ _ _ _ _ _ hs hr₁ with
    | complete hs₁ =>
      obtain ⟨t, ts, hy, ht⟩ := exists_tokens y
      rw [itemTokens, hy] at hs₁
      obtain ⟨s₂, hstep, hs₂⟩ := hj.arrayStep hs₁ ht
      have hnext : At s₂ (tokens y ++ (itemTokens ys ++ rest)) := by
        rw [hy]
        simpa using hs₂
      rw [afterItem, hstep] at h
      have hread := ih hx.2 hnext h
      rw [dataItems]
      simpa using hread
    | hard e s₁ =>
      cases h
      exact .hard e s₁

theorem objectLoop_reads (hj : jiter.Reads At) {key : String} {v : TokenDoc}
    {fields : List (String × TokenDoc)}
    (hm : ∀ e ∈ (key, v) :: fields, ReadsDoc jiter At config e.2) {fuel depth : ℕ}
    {path : JsonPath} {map : List (String × JsonData)} {cursorAfter : ℕ}
    {ds : List ParseDiagnostic} {s : σ} {rest : List JsonToken} {r : WalkOutcome × σ}
    (hs : At s (tokens v ++ (fieldTokens fields ++ rest)))
    (h : objectLoop jiter config fuel key depth path map cursorAfter ds s = some r) :
    ReadsTo At rest (.object (dataFields jiter.parseF64 ((key, v) :: fields) map)) r := by
  induction fields generalizing key v map cursorAfter ds fuel s with
  | nil =>
    obtain ⟨s₀, hpeek, hs₀⟩ := hj.peek_doc hs
    obtain ⟨n, r₁, hr₁, h⟩ := objectLoop_eq_some hpeek h
    cases hm (key, v) List.mem_cons_self _ _ _ _ _ _ hs₀ hr₁ with
    | complete hs₁ =>
      obtain ⟨s', hclose, hs'⟩ := hj.nextKey_close hs₁
      rw [afterField, hclose] at h
      cases h
      exact .complete hs'
    | hard e s₁ =>
      cases h
      exact .hard e s₁
  | cons e fields ih =>
    obtain ⟨next, w⟩ := e
    rw [List.forall_mem_cons] at hm
    obtain ⟨s₀, hpeek, hs₀⟩ := hj.peek_doc hs
    obtain ⟨n, r₁, hr₁, h⟩ := objectLoop_eq_some hpeek h
    cases hm.1 _ _ _ _ _ _ hs₀ hr₁ with
    | @complete cursor ds' s₁ hs₁ =>
      have hkey : At s₁ (.comma :: (keyTokens next ++
          (tokens w ++ (fieldTokens fields ++ rest)))) := by
        simpa [fieldTokens] using hs₁
      obtain ⟨s₂, hstep, hs₂⟩ := hj.nextKey hkey
      rw [afterField, hstep] at h
      rw [dataFields]
      exact ih hm.2 hs₂ h
    | hard e s₁ =>
      cases h
      exact .hard e s₁

/-- A document that is there whole is read as its value. -/
theorem walkValue_reads (hj : jiter.Reads At) (d : TokenDoc) {fuel pre depth : ℕ} {path : JsonPath}
    {s : σ} {rest : List JsonToken} {r : WalkOutcome × σ} (hs : At s (tokens d ++ rest))
    (h : walkValue jiter config fuel (docPeek d) pre depth path s = some r) :
    ReadsTo At rest (dataOf jiter.parseF64 d) r := by
  induction d using Doc.induction generalizing fuel pre depth path s rest r with
  | scalar t =>
    rw [tokens] at hs
    rw [dataOf]
    exact walkValue_scalar_reads hj hs h
  | array xs ih =>
    have hx : ∀ x ∈ xs, ReadsDoc jiter At config x := fun x hx => readsDoc_of_walkValue (ih x hx)
    obtain ⟨n, pre', hrest⟩ := walkValue_array_eq_some h
    rw [dataOf]
    cases xs with
    | nil =>
      rw [tokens] at hs
      obtain ⟨s', hclose, hs'⟩ := hj.knownArray_close hs
      rw [hclose] at hrest
      cases hrest
      exact .complete hs'
    | cons x xs =>
      obtain ⟨t, ts, hxt, ht⟩ := exists_tokens x
      rw [tokens, hxt] at hs
      obtain ⟨s', hopen, hs'⟩ := hj.knownArray hs ht
      have hitem : At s' (tokens x ++ (itemTokens xs ++ rest)) := by
        rw [hxt]
        simpa using hs'
      rw [hopen] at hrest
      exact arrayLoop_reads hj hx hitem hrest
  | object m ih =>
    have hm : ∀ e ∈ m, ReadsDoc jiter At config e.2 := fun e he =>
      readsDoc_of_walkValue (ih e.1 e.2 he)
    obtain ⟨n, pre', hrest⟩ := walkValue_object_eq_some h
    rw [dataOf]
    cases m with
    | nil =>
      rw [tokens] at hs
      obtain ⟨s', hclose, hs'⟩ := hj.knownObject_close hs
      rw [hclose] at hrest
      cases hrest
      exact .complete hs'
    | cons e m =>
      obtain ⟨key, v⟩ := e
      have hkey : At s (.openObject :: (keyTokens key ++
          (tokens v ++ (fieldTokens m ++ rest)))) := by
        rw [tokens] at hs
        simpa using hs
      obtain ⟨s', hopen, hs'⟩ := hj.knownObject hkey
      rw [hopen] at hrest
      exact objectLoop_reads hj hm hs' hrest

theorem readsDoc (hj : jiter.Reads At) (d : TokenDoc) : ReadsDoc jiter At config d :=
  readsDoc_of_walkValue (walkValue_reads hj d)

end Reading

section Truncation

variable {σ : Type} {jiter : Jiter σ} {Last : σ → List JsonToken → Option Peek → Prop}
  {config : JiterConfig}

/-- The walk stops short with the value `v`, or has failed. -/
inductive Stops (v : JsonData) : WalkOutcome × σ → Prop
  | truncated (cursor : ℕ) (ds : List ParseDiagnostic) (s : σ) : Stops v (.truncated v cursor ds, s)
  | hard (e : JiterError) (s : σ) : Stops v (.hard e, s)

/-- The same, or the value is complete and the input ends after it. -/
inductive Breaks (Last : σ → List JsonToken → Option Peek → Prop) (v : JsonData) :
    WalkOutcome × σ → Prop
  | stops {r : WalkOutcome × σ} (h : Stops v r) : Breaks Last v r
  | complete {cursor : ℕ} {ds : List ParseDiagnostic} {s : σ} (hs : Last s [] none) :
    Breaks Last v (.complete v cursor ds, s)

/-- What a walk of a cut document is shown to do. -/
def BreaksAt (jiter : Jiter σ) (Last : σ → List JsonToken → Option Peek → Prop)
    (config : JiterConfig) (c : CutDoc) : Prop :=
  ∀ fuel peek depth path s d r, c.peek = some peek → c.closed = some d → Last s c.tokens c.kind →
    walkWithPeek jiter config fuel peek depth path s = some r →
    Breaks Last (dataOf jiter.parseF64 d) r

theorem walkValue_broken (hj : jiter.Ends Last) {t : TokenScalar} {fuel pre depth : ℕ}
    {path : JsonPath} {s : σ} {r : WalkOutcome × σ} (hs : Last s [] (some t.peek))
    (h : walkValue jiter config fuel t.peek pre depth path s = some r) : Stops .null r := by
  cases fuel with
  | zero =>
    rw [walkValue] at h
    cases h
  | succ fuel =>
    cases t with
    | null =>
      obtain ⟨e, s', hread, he⟩ := hj.knownNull_broken hs
      simp only [TokenScalar.peek, walkValue, hread, dropped, isPartialTolerated, he, if_true] at h
      cases h
      exact .truncated _ _ _
    | bool b =>
      obtain ⟨e, s', hread, he⟩ := hj.knownBool_broken hs
      cases b with
      | true =>
        simp only [TokenScalar.peek] at hread
        simp only [TokenScalar.peek, walkValue, hread, dropped, isPartialTolerated, he,
          if_true] at h
        cases h
        exact .truncated _ _ _
      | false =>
        simp only [TokenScalar.peek] at hread
        simp only [TokenScalar.peek, walkValue, hread, dropped, isPartialTolerated, he,
          if_true] at h
        cases h
        exact .truncated _ _ _
    | number n =>
      obtain ⟨e, s', hread, he⟩ := hj.knownNumber_broken hs
      simp only [TokenScalar.peek, walkValue, walkNumber, hread, he, if_true] at h
      cases h
      exact .truncated _ _ _
    | string str =>
      obtain ⟨e, s', hread, he⟩ := hj.knownStr_broken hs
      simp only [TokenScalar.peek, walkValue, walkString, hread, he, if_true] at h
      cases h
      exact .truncated _ _ _

theorem breaksAt_of_stops (hj : jiter.Ends Last) {c : CutDoc}
    (h : (∀ d, c ≠ .whole d) → ∀ {p : Peek}, c.peek = some p → ∀ {d : TokenDoc},
      c.closed = some d → ∀ {fuel pre depth : ℕ} {path : JsonPath} {s : σ} {r : WalkOutcome × σ},
      Last s c.tokens c.kind → walkValue jiter config fuel p pre depth path s = some r →
      Stops (dataOf jiter.parseF64 d) r) : BreaksAt jiter Last config c := by
  intro fuel p depth path s d r hp hd hs hr
  by_cases hc : ∃ d', c = .whole d'
  · obtain ⟨d', rfl⟩ := hc
    cases hp
    cases hd
    have hs' : Last s (tokens d ++ []) none := by
      rw [List.append_nil]
      exact hs
    cases readsDoc (hj.reads none) d _ _ _ _ _ _ hs' hr with
    | complete hs₁ => exact .complete hs₁
    | hard e s₁ => exact .stops (.hard e s₁)
  · rcases walkWithPeek_eq_some hr with ⟨e, rfl⟩ | ⟨n, hr⟩
    · exact .stops (.hard e s)
    · exact .stops (h (fun d' hd' => hc ⟨d', hd'⟩) hp hd hs hr)

/-- An error at the end of the input ends an array with what it has. -/
theorem arrayRest_stops {fuel depth : ℕ} {path : JsonPath} {items : List JsonData} {cursor : ℕ}
    {ds : List ParseDiagnostic} {e : JiterError} {s : σ} {r : WalkOutcome × σ}
    (he : isPartialTolerated e = true)
    (h : arrayRest jiter config fuel depth path items cursor ds (.error e, s) = some r) :
    Stops (.array items) r := by
  rw [arrayRest, if_pos he] at h
  cases h
  exact .truncated _ _ _

theorem objectRest_stops {fuel depth : ℕ} {path : JsonPath} {map : List (String × JsonData)}
    {cursor : ℕ} {ds : List ParseDiagnostic} {e : JiterError} {s : σ} {r : WalkOutcome × σ}
    (he : isPartialTolerated e = true)
    (h : objectRest jiter config fuel depth path map cursor ds (.error e, s) = some r) :
    Stops (.object map) r := by
  rw [objectRest, if_pos he] at h
  cases h
  exact .truncated _ _ _

/-- The elements of an array that is cut. -/
def cutItems (done : List TokenDoc) (last : CutDoc) : List TokenDoc := done ++ last.closed.toList

theorem cutItems_missing {done : List TokenDoc} {last : CutDoc} (h : itemPeek done last = none) :
    cutItems done last = [] := by
  cases done with
  | nil => rw [cutItems, CutDoc.closed_of_peek_none h]; rfl
  | cons d done => cases h

theorem arrayLoop_stops (hj : jiter.Ends Last) {last : CutDoc}
    (hlast : BreaksAt jiter Last config last)
    {done : List TokenDoc} {peek : Peek} (hpeek : itemPeek done last = some peek)
    {fuel depth : ℕ} {path : JsonPath} {items : List JsonData} {ds : List ParseDiagnostic} {s : σ}
    {r : WalkOutcome × σ} (hs : Last s (beforeItems done last.tokens) last.kind)
    (h : arrayLoop jiter config fuel peek depth path items ds s = some r) :
    Stops (.array (items ++ dataItems jiter.parseF64 (cutItems done last))) r := by
  induction done generalizing peek items ds fuel s with
  | nil =>
    obtain ⟨d, hd⟩ := CutDoc.exists_closed hpeek
    have hitems : dataItems jiter.parseF64 (cutItems [] last) = [dataOf jiter.parseF64 d] := by
      rw [cutItems, hd, dataItems_eq]
      rfl
    rw [hitems]
    obtain ⟨n, r₁, -, hr₁, h⟩ := arrayLoop_eq_some h
    cases hlast _ _ _ _ _ _ _ hpeek hd hs hr₁ with
    | stops hstops =>
      cases hstops with
      | truncated cursor ds' s₁ =>
        cases h
        exact .truncated _ _ _
      | hard e s₁ =>
        cases h
        exact .hard e s₁
    | complete hs₁ =>
      obtain ⟨e, s', hstep, he⟩ := hj.arrayStep_end hs₁
      rw [afterItem, hstep] at h
      exact arrayRest_stops he h
  | cons x done ih =>
    obtain rfl : docPeek x = peek := Option.some.inj hpeek
    have hitems : cutItems (x :: done) last = x :: cutItems done last := rfl
    rw [hitems, dataItems]
    obtain ⟨n, r₁, -, hr₁, h⟩ := arrayLoop_eq_some h
    cases readsDoc (hj.reads last.kind) x _ _ _ _ _ _ hs hr₁ with
    | complete hs₁ =>
      rcases hj.arrayStep_starts hs₁ (starts_beforeItems done last) with
        ⟨hmissing, e, s', hstep, he⟩ | ⟨k, s', hk, hstep, hs'⟩
      · rw [afterItem, hstep] at h
        rw [cutItems_missing hmissing, dataItems]
        exact arrayRest_stops he h
      · rw [afterItem, hstep] at h
        have hstops := ih hk hs' h
        rw [List.append_assoc] at hstops
        exact hstops
    | hard e s₁ =>
      cases h
      exact .hard e s₁

theorem walkArray_stops (hj : jiter.Ends Last) {last : CutDoc}
    (hlast : BreaksAt jiter Last config last)
    {done : List TokenDoc} {fuel depth : ℕ} {path : JsonPath} {pre : ℕ} {s : σ}
    {r : WalkOutcome × σ} (hs : Last s (CutDoc.array done last).tokens last.kind)
    (h : arrayRest jiter config fuel depth path [] pre [] (jiter.knownArray s) = some r) :
    Stops (.array (dataItems jiter.parseF64 (cutItems done last))) r := by
  rcases hj.knownArray_starts hs (starts_beforeItems done last) with
    ⟨hmissing, e, s', hstep, he⟩ | ⟨k, s', hk, hstep, hs'⟩
  · rw [hstep] at h
    rw [cutItems_missing hmissing, dataItems]
    exact arrayRest_stops he h
  · rw [hstep] at h
    exact arrayLoop_stops hj hlast hk hs' h

/-- What comes last in an object that is cut: its tokens, and the fields it adds. -/
def ObjectEnds (jiter : Jiter σ) (Last : σ → List JsonToken → Option Peek → Prop)
    (config : JiterConfig) (ts : List JsonToken) (kind : Option Peek)
    (fields : List (String × TokenDoc)) : Prop :=
  ∀ fuel depth path map cursor ds s r,
    (Last s (.comma :: ts) kind →
      objectRest jiter config fuel depth path map cursor ds (jiter.nextKey s) = some r →
      Stops (.object (dataFields jiter.parseF64 fields map)) r) ∧
    (Last s (.openObject :: ts) kind →
      objectRest jiter config fuel depth path map cursor ds (jiter.knownObject s) = some r →
      Stops (.object (dataFields jiter.parseF64 fields map)) r)

theorem objectEnds_key (hj : jiter.Ends Last) (key : KeyEnd) :
    ObjectEnds jiter Last config key.tokens key.kind [] := by
  intro fuel depth path map cursor ds s r
  rw [dataFields]
  constructor
  · intro hs h
    obtain ⟨e, s', hstep, he⟩ := hj.nextKey_comma key hs
    rw [hstep] at h
    exact objectRest_stops he h
  · intro hs h
    obtain ⟨e, s', hstep, he⟩ := hj.knownObject_end key hs
    rw [hstep] at h
    exact objectRest_stops he h

/-- The fields that a cut value adds. -/
def cutField (key : String) (last : CutDoc) : List (String × TokenDoc) :=
  last.closed.toList.map fun v => (key, v)

theorem objectLoop_last (hj : jiter.Ends Last) {last : CutDoc}
    (hlast : BreaksAt jiter Last config last)
    {key : String} {fuel depth : ℕ} {path : JsonPath} {map : List (String × JsonData)}
    {cursorAfter : ℕ} {ds : List ParseDiagnostic} {s : σ} {r : WalkOutcome × σ}
    (hs : Last s last.tokens last.kind)
    (h : objectLoop jiter config fuel key depth path map cursorAfter ds s = some r) :
    Stops (.object (dataFields jiter.parseF64 (cutField key last) map)) r := by
  rcases hj.peek_starts hs last.starts with ⟨hmissing, e, s', hstep, he⟩ | ⟨k, s', hk, hstep, hs'⟩
  · rw [cutField, CutDoc.closed_of_peek_none hmissing, Option.toList_none, List.map_nil, dataFields]
    cases fuel with
    | zero =>
      rw [objectLoop] at h
      cases h
    | succ fuel =>
      simp only [objectLoop, hstep, isPartialTolerated, he, if_true] at h
      cases h
      exact .truncated _ _ _
  · obtain ⟨d, hd⟩ := CutDoc.exists_closed hk
    rw [cutField, hd, Option.toList_some, List.map_singleton, dataFields, dataFields]
    obtain ⟨n, r₁, hr₁, h⟩ := objectLoop_eq_some hstep h
    cases hlast _ _ _ _ _ _ _ hk hd hs' hr₁ with
    | stops hstops =>
      cases hstops with
      | truncated cursor ds' s₁ =>
        cases h
        exact .truncated _ _ _
      | hard e s₁ =>
        cases h
        exact .hard e s₁
    | complete hs₁ =>
      obtain ⟨e, s₂, hstep, he⟩ := hj.nextKey_end hs₁
      rw [afterField, hstep] at h
      exact objectRest_stops he h

theorem objectEnds_last (hj : jiter.Ends Last) {last : CutDoc}
    (hlast : BreaksAt jiter Last config last)
    (key : String) :
    ObjectEnds jiter Last config (keyTokens key ++ last.tokens) last.kind (cutField key last) := by
  intro fuel depth path map cursor ds s r
  constructor
  · intro hs h
    obtain ⟨s', hstep, hs'⟩ := (hj.reads last.kind).nextKey hs
    rw [hstep] at h
    exact objectLoop_last hj hlast hs' h
  · intro hs h
    obtain ⟨s', hstep, hs'⟩ := (hj.reads last.kind).knownObject hs
    rw [hstep] at h
    exact objectLoop_last hj hlast hs' h

theorem objectLoop_stops (hj : jiter.Ends Last) {ts : List JsonToken} {kind : Option Peek}
    {fields : List (String × TokenDoc)} (hends : ObjectEnds jiter Last config ts kind fields)
    {key : String} {v : TokenDoc} {done : List (String × TokenDoc)} {fuel depth : ℕ}
    {path : JsonPath} {map : List (String × JsonData)} {cursorAfter : ℕ}
    {ds : List ParseDiagnostic} {s : σ} {r : WalkOutcome × σ}
    (hs : Last s (tokens v ++ .comma :: beforeFields done ts) kind)
    (h : objectLoop jiter config fuel key depth path map cursorAfter ds s = some r) :
    Stops (.object (dataFields jiter.parseF64 ((key, v) :: (done ++ fields)) map)) r := by
  induction done generalizing key v map cursorAfter ds fuel s with
  | nil =>
    obtain ⟨s₀, hpeek, hs₀⟩ := (hj.reads kind).peek_doc hs
    obtain ⟨n, r₁, hr₁, h⟩ := objectLoop_eq_some hpeek h
    rw [dataFields]
    cases readsDoc (hj.reads kind) v _ _ _ _ _ _ hs₀ hr₁ with
    | complete hs₁ => exact (hends _ _ _ _ _ _ _ _).1 hs₁ h
    | hard e s₁ =>
      cases h
      exact .hard e s₁
  | cons e done ih =>
    obtain ⟨next, w⟩ := e
    obtain ⟨s₀, hpeek, hs₀⟩ := (hj.reads kind).peek_doc hs
    obtain ⟨n, r₁, hr₁, h⟩ := objectLoop_eq_some hpeek h
    rw [dataFields]
    cases readsDoc (hj.reads kind) v _ _ _ _ _ _ hs₀ hr₁ with
    | complete hs₁ =>
      obtain ⟨s₂, hstep, hs₂⟩ := (hj.reads kind).nextKey hs₁
      rw [afterField, hstep] at h
      exact ih hs₂ h
    | hard e s₁ =>
      cases h
      exact .hard e s₁

theorem walkObject_stops (hj : jiter.Ends Last) {ts : List JsonToken} {kind : Option Peek}
    {fields : List (String × TokenDoc)} (hends : ObjectEnds jiter Last config ts kind fields)
    {done : List (String × TokenDoc)} {fuel depth : ℕ} {path : JsonPath} {pre : ℕ} {s : σ}
    {r : WalkOutcome × σ} (hs : Last s (.openObject :: beforeFields done ts) kind)
    (h : objectRest jiter config fuel depth path [] pre [] (jiter.knownObject s) = some r) :
    Stops (.object (dataFields jiter.parseF64 (done ++ fields) [])) r := by
  cases done with
  | nil => exact (hends _ _ _ _ _ _ _ _).2 hs h
  | cons e done =>
    obtain ⟨s', hstep, hs'⟩ := (hj.reads kind).knownObject hs
    rw [hstep] at h
    exact objectLoop_stops hj hends hs' h

/-- A cut container stops short with what is there of it. -/
theorem walkValue_stops (hj : jiter.Ends Last) {c : CutDoc} (hc : ∀ d, c ≠ .whole d) {p : Peek}
    (hp : c.peek = some p) {d : TokenDoc} (hd : c.closed = some d) {fuel pre depth : ℕ}
    {path : JsonPath} {s : σ} {r : WalkOutcome × σ} (hs : Last s c.tokens c.kind)
    (h : walkValue jiter config fuel p pre depth path s = some r) :
    Stops (dataOf jiter.parseF64 d) r := by
  induction c generalizing p d fuel pre depth path s r with
  | missing => cases hp
  | broken t =>
    cases hp
    cases hd
    exact walkValue_broken hj hs h
  | whole d' => exact absurd rfl (hc d')
  | array done last ih =>
    cases hp
    cases hd
    obtain ⟨n, pre', h⟩ := walkValue_array_eq_some h
    rw [dataOf]
    exact walkArray_stops hj (breaksAt_of_stops hj ih) hs h
  | object done key last ih =>
    cases hp
    cases hd
    obtain ⟨n, pre', h⟩ := walkValue_object_eq_some h
    rw [dataOf]
    exact walkObject_stops hj (objectEnds_last hj (breaksAt_of_stops hj ih) key) hs h
  | objectKey done key =>
    cases hp
    cases hd
    obtain ⟨n, pre', h⟩ := walkValue_object_eq_some h
    have hstops := walkObject_stops hj (objectEnds_key hj key) hs h
    rw [List.append_nil] at hstops
    rwa [dataOf]

end Truncation

end JiterPartialParser

end PJS
