import PJS.Parser.Partial
import PJS.Lib.Nesting

/-! How deep the partial parser goes. It counts a container when it enters it, and tests the depth
at every value: what stands in the innermost containers is tested as well. -/
namespace PJS

open Doc (Nests)

section Tokens

/-- A scalar as the tokenizer reads it. -/
inductive TokenScalar where
  | null
  | bool (b : Bool)
  | number (n : NumberAny)
  | string (s : String)
deriving DecidableEq

inductive JsonToken where
  | scalar (s : TokenScalar)
  | openArray
  | closeArray
  | openObject
  | closeObject
  | comma
  | colon
deriving DecidableEq

/-- A document as its tokens spell it. A key may occur again. -/
abbrev TokenDoc := Doc String TokenScalar

def TokenScalar.peek : TokenScalar → Peek
  | .null => .null
  | .bool true => .true
  | .bool false => .false
  | .number _ => .number
  | .string _ => .string

/-- The kind of value that starts with the token. -/
def JsonToken.peek? : JsonToken → Option Peek
  | .scalar s => some s.peek
  | .openArray => some .array
  | .openObject => some .object
  | _ => none

def keyTokens (key : String) : List JsonToken := [.scalar (.string key), .colon]

mutual

def tokens : TokenDoc → List JsonToken
  | .scalar s => [.scalar s]
  | .array [] => [.openArray, .closeArray]
  | .array (x :: xs) => .openArray :: (tokens x ++ itemTokens xs)
  | .object [] => [.openObject, .closeObject]
  | .object ((key, v) :: m) => .openObject :: (keyTokens key ++ (tokens v ++ fieldTokens m))

/-- What follows an element of an array. -/
def itemTokens : List TokenDoc → List JsonToken
  | [] => [.closeArray]
  | x :: xs => .comma :: (tokens x ++ itemTokens xs)

/-- What follows a field of an object. -/
def fieldTokens : List (String × TokenDoc) → List JsonToken
  | [] => [.closeObject]
  | (key, v) :: m => .comma :: (keyTokens key ++ (tokens v ++ fieldTokens m))

end

/-- The kind of a document. -/
def docPeek : TokenDoc → Peek
  | .scalar s => s.peek
  | .array _ => .array
  | .object _ => .object

theorem exists_tokens (d : TokenDoc) : ∃ t rest, tokens d = t :: rest ∧ t.peek? = some (docPeek d) := by
  rcases d with s | xs | m
  · exact ⟨_, _, by rw [tokens], rfl⟩
  · cases xs with
    | nil => exact ⟨_, _, by rw [tokens], rfl⟩
    | cons x xs => exact ⟨_, _, by rw [tokens], rfl⟩
  · cases m with
    | nil => exact ⟨_, _, by rw [tokens], rfl⟩
    | cons e m => exact ⟨_, _, by rw [tokens], rfl⟩

end Tokens

section Tokenizer

variable {σ : Type}

/-- What the documentation of the tokenizer promises. `At s ts` says that the tokens `ts` are still
to be read in the state `s`. -/
structure Jiter.Reads (jiter : Jiter σ) (At : σ → List JsonToken → Prop) : Prop where
  peek : ∀ {s t ts k}, At s (t :: ts) → t.peek? = some k →
    ∃ s', jiter.peek s = (.ok k, s') ∧ At s' (t :: ts)
  knownNull : ∀ {s ts}, At s (.scalar .null :: ts) →
    ∃ s', jiter.knownNull s = (.ok (), s') ∧ At s' ts
  knownBool : ∀ {s ts b}, At s (.scalar (.bool b) :: ts) →
    ∃ s', jiter.knownBool (TokenScalar.bool b).peek s = (.ok b, s') ∧ At s' ts
  knownNumber : ∀ {s ts n}, At s (.scalar (.number n) :: ts) →
    ∃ s', jiter.knownNumber .number s = (.ok n, s') ∧ At s' ts
  knownStr : ∀ {s ts str}, At s (.scalar (.string str) :: ts) →
    ∃ s', jiter.knownStr s = (.ok str, s') ∧ At s' ts
  knownArray : ∀ {s t ts k}, At s (.openArray :: t :: ts) → t.peek? = some k →
    ∃ s', jiter.knownArray s = (.ok (some k), s') ∧ At s' (t :: ts)
  knownArray_close : ∀ {s ts}, At s (.openArray :: .closeArray :: ts) →
    ∃ s', jiter.knownArray s = (.ok none, s') ∧ At s' ts
  arrayStep : ∀ {s t ts k}, At s (.comma :: t :: ts) → t.peek? = some k →
    ∃ s', jiter.arrayStep s = (.ok (some k), s') ∧ At s' (t :: ts)
  arrayStep_close : ∀ {s ts}, At s (.closeArray :: ts) →
    ∃ s', jiter.arrayStep s = (.ok none, s') ∧ At s' ts
  knownObject : ∀ {s ts key}, At s (.openObject :: (keyTokens key ++ ts)) →
    ∃ s', jiter.knownObject s = (.ok (some key), s') ∧ At s' ts
  knownObject_close : ∀ {s ts}, At s (.openObject :: .closeObject :: ts) →
    ∃ s', jiter.knownObject s = (.ok none, s') ∧ At s' ts
  nextKey : ∀ {s ts key}, At s (.comma :: (keyTokens key ++ ts)) →
    ∃ s', jiter.nextKey s = (.ok (some key), s') ∧ At s' ts
  nextKey_close : ∀ {s ts}, At s (.closeObject :: ts) →
    ∃ s', jiter.nextKey s = (.ok none, s') ∧ At s' ts

/-- Every value stands inside fewer than `n` containers. -/
inductive Below : ℕ → TokenDoc → Prop
  | scalar (n : ℕ) (s : TokenScalar) : Below (n + 1) (.scalar s)
  | array {n : ℕ} {xs : List TokenDoc} (h : ∀ x ∈ xs, Below n x) : Below (n + 1) (.array xs)
  | object {n : ℕ} {m : List (String × TokenDoc)} (h : ∀ e ∈ m, Below n e.2) :
    Below (n + 1) (.object m)

theorem Below.nests {n : ℕ} {d : TokenDoc} (h : Below n d) : Nests n d := by
  induction h with
  | scalar n s => exact .scalar _ s
  | array _ ih => exact .array ih
  | object _ ih => exact .object fun k v hkv => ih (k, v) hkv

theorem not_below_zero (d : TokenDoc) : ¬Below 0 d := nofun

theorem below_array_iff {n : ℕ} {xs : List TokenDoc} :
    Below (n + 1) (.array xs) ↔ ∀ x ∈ xs, Below n x :=
  ⟨fun h => by cases h with | array h => exact h, .array⟩

theorem below_object_iff {n : ℕ} {m : List (String × TokenDoc)} :
    Below (n + 1) (.object m) ↔ ∀ e ∈ m, Below n e.2 :=
  ⟨fun h => by cases h with | object h => exact h, .object⟩

end Tokenizer

section Fuel

variable {α : Type}

/-- With enough fuel the walk returns `a`. -/
def Runs (walk : ℕ → Option α) (a : α) : Prop := ∃ N, ∀ fuel, N ≤ fuel → walk fuel = some a

theorem Runs.intro {walk : ℕ → Option α} {a : α} (h : ∀ fuel, walk (fuel + 1) = some a) :
    Runs walk a := by
  refine ⟨1, fun fuel hfuel => ?_⟩
  obtain ⟨fuel, rfl⟩ : ∃ k, fuel = k + 1 := ⟨fuel - 1, by omega⟩
  exact h fuel

/-- A walk that goes on with another one. -/
theorem Runs.step {walk walk' : ℕ → Option α} {a b : α} (h : Runs walk a)
    (hstep : ∀ fuel, walk fuel = some a → walk' (fuel + 1) = some b) : Runs walk' b := by
  obtain ⟨N, hN⟩ := h
  refine ⟨N + 1, fun fuel hfuel => ?_⟩
  obtain ⟨fuel, rfl⟩ : ∃ k, fuel = k + 1 := ⟨fuel - 1, by omega⟩
  exact hstep fuel (hN fuel (by omega))

/-- A walk that goes on with two others, one after the other. -/
theorem Runs.step₂ {walk walk' walk'' : ℕ → Option α} {a b c : α} (h : Runs walk a)
    (h' : Runs walk' b) (hstep : ∀ fuel, walk fuel = some a → walk' fuel = some b →
      walk'' (fuel + 1) = some c) : Runs walk'' c := by
  obtain ⟨N, hN⟩ := h
  obtain ⟨N', hN'⟩ := h'
  refine ⟨max N N' + 1, fun fuel hfuel => ?_⟩
  obtain ⟨fuel, rfl⟩ : ∃ k, fuel = k + 1 := ⟨fuel - 1, by omega⟩
  exact hstep fuel (hN fuel (by omega)) (hN' fuel (by omega))

theorem Runs.unique {walk : ℕ → Option α} {a b : α} (ha : Runs walk a) (hb : Runs walk b) :
    a = b := by
  obtain ⟨N, hN⟩ := ha
  obtain ⟨N', hN'⟩ := hb
  exact Option.some.inj ((hN (max N N') (by omega)).symm.trans (hN' (max N N') (by omega)))

end Fuel

namespace JiterPartialParser

section Depth

variable {σ : Type} {jiter : Jiter σ} {At : σ → List JsonToken → Prop} {config : JiterConfig}

/-- The walk completes before the tokens `ts` if `ok` holds, and hits the depth limit if not. -/
inductive Settles (At : σ → List JsonToken → Prop) (ts : List JsonToken) (ok : Prop) :
    WalkOutcome × σ → Prop
  | complete {value : JsonData} {cursor : ℕ} {ds : List ParseDiagnostic} {s : σ} (h : ok)
      (hs : At s ts) : Settles At ts ok (.complete value cursor ds, s)
  | hard {i : ℕ} {s : σ} (h : ¬ok) : Settles At ts ok (.hard ⟨.recursionLimitExceeded, i⟩, s)

theorem Settles.congr {ts : List JsonToken} {ok ok' : Prop} {r : WalkOutcome × σ}
    (h : Settles At ts ok r) (hok : ok ↔ ok') : Settles At ts ok' r := by
  cases h with
  | complete h hs => exact .complete (hok.mp h) hs
  | hard h => exact .hard fun h' => h (hok.mpr h')

theorem walkWithPeek_deep (fuel : ℕ) (peek : Peek) {depth : ℕ} (path : JsonPath) (s : σ)
    (h : depth + 0 = config.maxDepth) :
    walkWithPeek jiter config (fuel + 1) peek depth path s = some (depthError jiter s, s) := by
  rw [walkWithPeek, if_pos (by omega)]

theorem walkWithPeek_shallow (fuel : ℕ) (peek : Peek) {depth n : ℕ} (path : JsonPath) (s : σ)
    (h : depth + (n + 1) = config.maxDepth) :
    walkWithPeek jiter config (fuel + 1) peek depth path s =
      walkValue jiter config fuel peek (jiter.currentIndex s) depth path s := by
  rw [walkWithPeek, if_neg (by omega)]

/-- A scalar is read whatever the depth. -/
theorem walkValue_scalar (hj : jiter.Reads At) (t : TokenScalar) (pre depth : ℕ) (path : JsonPath)
    {s : σ} {rest : List JsonToken} (hs : At s (.scalar t :: rest)) :
    ∃ r, Settles At rest True r ∧
      ∀ fuel, walkValue jiter config (fuel + 1) t.peek pre depth path s = some r := by
  cases t with
  | null =>
    obtain ⟨s', hread, hs'⟩ := hj.knownNull hs
    refine ⟨(.complete .null (jiter.currentIndex s') [], s'), .complete trivial hs', fun fuel => ?_⟩
    simp only [TokenScalar.peek, walkValue, hread]
  | bool b =>
    obtain ⟨s', hread, hs'⟩ := hj.knownBool hs
    refine ⟨(.complete (.bool b) (jiter.currentIndex s') [], s'), .complete trivial hs',
      fun fuel => ?_⟩
    cases b with
    | true =>
      simp only [TokenScalar.peek] at hread
      simp only [TokenScalar.peek, walkValue, hread]
    | false =>
      simp only [TokenScalar.peek] at hread
      simp only [TokenScalar.peek, walkValue, hread]
  | number n =>
    obtain ⟨s', hread, hs'⟩ := hj.knownNumber hs
    cases hn : walkNumber jiter .number pre path s with
    | mk outcome s₁ =>
      refine ⟨(outcome, s₁), ?_, fun fuel => ?_⟩
      · unfold walkNumber at hn
        rw [hread] at hn
        cases n with
        | int i =>
          obtain ⟨rfl, rfl⟩ := Prod.mk.inj hn
          exact .complete trivial hs'
        | bigInt b =>
          obtain ⟨rfl, rfl⟩ := Prod.mk.inj hn
          exact .complete trivial hs'
        | float f =>
          obtain ⟨rfl, rfl⟩ := Prod.mk.inj hn
          exact .complete trivial hs'
      · simp only [TokenScalar.peek, walkValue, hn]
  | string str =>
    obtain ⟨s', hread, hs'⟩ := hj.knownStr hs
    refine ⟨(.complete (.string str) (jiter.currentIndex s') [], s'), .complete trivial hs',
      fun fuel => ?_⟩
    simp only [TokenScalar.peek, walkValue, walkString, hread]

/-- What a walk of one document is shown to do. -/
def WalksTo (jiter : Jiter σ) (At : σ → List JsonToken → Prop) (config : JiterConfig) (n : ℕ)
    (d : TokenDoc) : Prop :=
  ∀ depth path s rest, depth + n = config.maxDepth → At s (tokens d ++ rest) →
    ∃ r, Runs (fun fuel => walkWithPeek jiter config fuel (docPeek d) depth path s) r ∧
      Settles At rest (Below n d) r

/-- The loop over the elements reads them all, or stops at the first that is too deep. -/
theorem arrayLoop_settles (hj : jiter.Reads At) {n depth : ℕ} (path : JsonPath)
    (hdepth : depth + n = config.maxDepth) (x : TokenDoc) (xs : List TokenDoc)
    (hx : ∀ y ∈ x :: xs, WalksTo jiter At config n y) (items : List JsonData)
    (ds : List ParseDiagnostic) {s : σ} {rest : List JsonToken}
    (hs : At s (tokens x ++ (itemTokens xs ++ rest))) :
    ∃ r, Runs (fun fuel => arrayLoop jiter config fuel (docPeek x) depth path items ds s) r ∧
      Settles At rest (∀ y ∈ x :: xs, Below n y) r := by
  induction xs generalizing x items ds s with
  | nil =>
    rw [List.forall_mem_singleton] at hx
    obtain ⟨r, hrun, hr⟩ :=
      hx depth (path.appendIndex (UInt64.ofNat items.length)) s _ hdepth hs
    cases hr with
    | @complete value cursor ds' s₁ hok hs =>
      obtain ⟨s', hclose, hs'⟩ := hj.arrayStep_close hs
      refine ⟨(.complete (.array (items ++ [value])) (jiter.currentIndex s') (ds ++ ds'), s'),
        hrun.step fun fuel hfuel => ?_, .complete (List.forall_mem_singleton.mpr hok) hs'⟩
      simp only [arrayLoop, hfuel, hclose]
    | @hard i s₁ hok =>
      refine ⟨(.hard ⟨.recursionLimitExceeded, i⟩, s₁), hrun.step fun fuel hfuel => ?_,
        .hard fun h => hok (List.forall_mem_singleton.mp h)⟩
      simp only [arrayLoop, hfuel]
  | cons y ys ih =>
    rw [List.forall_mem_cons] at hx
    obtain ⟨r, hrun, hr⟩ :=
      hx.1 depth (path.appendIndex (UInt64.ofNat items.length)) s _ hdepth hs
    cases hr with
    | @complete value cursor ds' s₁ hok hs₁ =>
      obtain ⟨t, ts, hy, ht⟩ := exists_tokens y
      rw [itemTokens, hy] at hs₁
      obtain ⟨s₂, hstep, hs₂⟩ := hj.arrayStep hs₁ ht
      have hnext : At s₂ (tokens y ++ (itemTokens ys ++ rest)) := by
        rw [hy]
        simpa using hs₂
      obtain ⟨r', hrun', hr'⟩ := ih y hx.2 (items ++ [value]) (ds ++ ds') hnext
      refine ⟨r', hrun.step₂ hrun' fun fuel hfuel hfuel' => ?_, hr'.congr ?_⟩
      · simp only [arrayLoop, hfuel, hstep]
        exact hfuel'
      · rw [@List.forall_mem_cons _ _ x]
        exact ⟨fun h => ⟨hok, h⟩, And.right⟩
    | @hard i s₁ hok =>
      refine ⟨(.hard ⟨.recursionLimitExceeded, i⟩, s₁), hrun.step fun fuel hfuel => ?_,
        .hard fun h => hok (List.forall_mem_cons.mp h).1⟩
      simp only [arrayLoop, hfuel]

/-- The loop over the fields does the same. -/
theorem objectLoop_settles (hj : jiter.Reads At) {n depth : ℕ} (path : JsonPath)
    (hdepth : depth + n = config.maxDepth) (key : String) (v : TokenDoc)
    (m : List (String × TokenDoc)) (hm : ∀ e ∈ (key, v) :: m, WalksTo jiter At config n e.2)
    (map : List (String × JsonData)) (cursorAfter : ℕ) (ds : List ParseDiagnostic) {s : σ}
    {rest : List JsonToken} (hs : At s (tokens v ++ (fieldTokens m ++ rest))) :
    ∃ r, Runs (fun fuel => objectLoop jiter config fuel key depth path map cursorAfter ds s) r ∧
      Settles At rest (∀ e ∈ (key, v) :: m, Below n e.2) r := by
  induction m generalizing key v map cursorAfter ds s with
  | nil =>
    obtain ⟨t, ts, hv, ht⟩ := exists_tokens v
    rw [hv] at hs
    obtain ⟨s₀, hpeek, hs₀⟩ := hj.peek hs ht
    have hvalue : At s₀ (tokens v ++ (fieldTokens [] ++ rest)) := by
      rw [hv]
      exact hs₀
    obtain ⟨r, hrun, hr⟩ := hm (key, v) List.mem_cons_self depth (childPath path key) s₀ _ hdepth
      hvalue
    cases hr with
    | @complete value cursor ds' s₁ hok hs =>
      obtain ⟨s', hclose, hs'⟩ := hj.nextKey_close hs
      refine ⟨(.complete (.object (Assoc.insert key value map)) (jiter.currentIndex s')
        (ds ++ duplicate path key map ++ ds'), s'), hrun.step fun fuel hfuel => ?_,
        .complete (List.forall_mem_singleton.mpr hok) hs'⟩
      simp only [objectLoop, duplicate, hpeek, hfuel, hclose]
    | @hard i s₁ hok =>
      refine ⟨(.hard ⟨.recursionLimitExceeded, i⟩, s₁), hrun.step fun fuel hfuel => ?_,
        .hard fun h => hok (h (key, v) List.mem_cons_self)⟩
      simp only [objectLoop, hpeek, hfuel]
  | cons e m ih =>
    obtain ⟨next, w⟩ := e
    rw [List.forall_mem_cons] at hm
    obtain ⟨t, ts, hv, ht⟩ := exists_tokens v
    rw [hv] at hs
    obtain ⟨s₀, hpeek, hs₀⟩ := hj.peek hs ht
    have hvalue : At s₀ (tokens v ++ (fieldTokens ((next, w) :: m) ++ rest)) := by
      rw [hv]
      exact hs₀
    obtain ⟨r, hrun, hr⟩ := hm.1 depth (childPath path key) s₀ _ hdepth hvalue
    cases hr with
    | @complete value cursor ds' s₁ hok hs₁ =>
      rw [fieldTokens] at hs₁
      have hkey : At s₁ (.comma :: (keyTokens next ++ (tokens w ++ (fieldTokens m ++ rest)))) := by
        simpa using hs₁
      obtain ⟨s₂, hstep, hs₂⟩ := hj.nextKey hkey
      obtain ⟨r', hrun', hr'⟩ := ih next w hm.2 (Assoc.insert key value map) cursor
        (ds ++ duplicate path key map ++ ds') hs₂
      refine ⟨r', hrun.step₂ hrun' fun fuel hfuel hfuel' => ?_, hr'.congr ?_⟩
      · simp only [objectLoop, hpeek, hfuel, hstep]
        exact hfuel'
      · rw [@List.forall_mem_cons _ _ (key, v)]
        exact ⟨fun h => ⟨hok, h⟩, And.right⟩
    | @hard i s₁ hok =>
      refine ⟨(.hard ⟨.recursionLimitExceeded, i⟩, s₁), hrun.step fun fuel hfuel => ?_,
        .hard fun h => hok (List.forall_mem_cons.mp h).1⟩
      simp only [objectLoop, hpeek, hfuel]

theorem walkArray_settles (hj : jiter.Reads At) {n depth : ℕ} (path : JsonPath)
    (hdepth : depth + n = config.maxDepth) {xs : List TokenDoc}
    (hx : ∀ x ∈ xs, WalksTo jiter At config n x) (preOpen : ℕ) {s : σ} {rest : List JsonToken}
    (hs : At s (tokens (.array xs) ++ rest)) :
    ∃ r, Runs (fun fuel => walkArray jiter config fuel depth path preOpen s) r ∧
      Settles At rest (∀ x ∈ xs, Below n x) r := by
  cases xs with
  | nil =>
    rw [tokens] at hs
    obtain ⟨s', hclose, hs'⟩ := hj.knownArray_close hs
    refine ⟨(.complete (.array []) (jiter.currentIndex s') [], s'), .intro fun fuel => ?_,
      .complete (by simp) hs'⟩
    simp only [walkArray, hclose]
  | cons x xs =>
    obtain ⟨t, ts, hxt, ht⟩ := exists_tokens x
    rw [tokens, hxt] at hs
    obtain ⟨s', hopen, hs'⟩ := hj.knownArray hs ht
    have hitem : At s' (tokens x ++ (itemTokens xs ++ rest)) := by
      rw [hxt]
      simpa using hs'
    obtain ⟨r, hrun, hr⟩ := arrayLoop_settles hj path hdepth x xs hx [] [] hitem
    refine ⟨r, hrun.step fun fuel hfuel => ?_, hr⟩
    simp only [walkArray, hopen]
    exact hfuel

theorem walkObject_settles (hj : jiter.Reads At) {n depth : ℕ} (path : JsonPath)
    (hdepth : depth + n = config.maxDepth) {m : List (String × TokenDoc)}
    (hm : ∀ e ∈ m, WalksTo jiter At config n e.2) (preOpen : ℕ) {s : σ} {rest : List JsonToken}
    (hs : At s (tokens (.object m) ++ rest)) :
    ∃ r, Runs (fun fuel => walkObject jiter config fuel depth path preOpen s) r ∧
      Settles At rest (∀ e ∈ m, Below n e.2) r := by
  cases m with
  | nil =>
    rw [tokens] at hs
    obtain ⟨s', hclose, hs'⟩ := hj.knownObject_close hs
    refine ⟨(.complete (.object []) (jiter.currentIndex s') [], s'), .intro fun fuel => ?_,
      .complete (by simp) hs'⟩
    simp only [walkObject, hclose]
  | cons e m =>
    obtain ⟨key, v⟩ := e
    have hkey : At s (.openObject :: (keyTokens key ++ (tokens v ++ (fieldTokens m ++ rest)))) := by
      rw [tokens] at hs
      simpa using hs
    obtain ⟨s', hopen, hs'⟩ := hj.knownObject hkey
    obtain ⟨r, hrun, hr⟩ := objectLoop_settles hj path hdepth key v m hm [] preOpen [] hs'
    refine ⟨r, hrun.step fun fuel hfuel => ?_, hr⟩
    simp only [walkObject, hopen]
    exact hfuel

/-- A walk with the depth tested, from walks where it was. -/
theorem walksTo_of_walkValue {d : TokenDoc}
    (h : ∀ n pre depth path s rest, depth + (n + 1) = config.maxDepth → At s (tokens d ++ rest) →
      ∃ r, Runs (fun fuel => walkValue jiter config fuel (docPeek d) pre depth path s) r ∧
        Settles At rest (Below (n + 1) d) r) (n : ℕ) : WalksTo jiter At config n d := by
  intro depth path s rest hdepth hs
  cases n with
  | zero =>
    exact ⟨(depthError jiter s, s), .intro fun fuel => walkWithPeek_deep fuel _ path s hdepth,
      .hard (not_below_zero d)⟩
  | succ n =>
    obtain ⟨r, hrun, hr⟩ := h n (jiter.currentIndex s) depth path s rest hdepth hs
    refine ⟨r, hrun.step fun fuel hfuel => ?_, hr⟩
    rw [walkWithPeek_shallow fuel _ path s hdepth]
    exact hfuel

/-- A document is read where `n` more levels are allowed iff it stays below them. -/
theorem walkValue_settles (hj : jiter.Reads At) (d : TokenDoc) (n pre depth : ℕ) (path : JsonPath)
    (s : σ) (rest : List JsonToken) (hdepth : depth + (n + 1) = config.maxDepth)
    (hs : At s (tokens d ++ rest)) :
    ∃ r, Runs (fun fuel => walkValue jiter config fuel (docPeek d) pre depth path s) r ∧
      Settles At rest (Below (n + 1) d) r := by
  induction d using Doc.induction generalizing n pre depth path s rest with
  | scalar t =>
    rw [tokens] at hs
    obtain ⟨r, hr, hrun⟩ := @walkValue_scalar _ _ _ config hj t pre depth path _ _ hs
    exact ⟨r, .intro hrun, hr.congr ⟨fun _ => .scalar n t, fun _ => trivial⟩⟩
  | array xs ih =>
    have hx : ∀ x ∈ xs, WalksTo jiter At config n x := fun x hx =>
      walksTo_of_walkValue (ih x hx) n
    obtain ⟨r, hrun, hr⟩ := walkArray_settles hj path (show depth + 1 + n = config.maxDepth by omega)
      hx (jiter.currentIndex s) hs
    refine ⟨r, hrun.step fun fuel hfuel => ?_, hr.congr below_array_iff.symm⟩
    rw [docPeek, walkValue]
    exact hfuel
  | object m ih =>
    have hm : ∀ e ∈ m, WalksTo jiter At config n e.2 := fun e he =>
      walksTo_of_walkValue (ih e.1 e.2 he) n
    obtain ⟨r, hrun, hr⟩ := walkObject_settles hj path
      (show depth + 1 + n = config.maxDepth by omega) hm (jiter.currentIndex s) hs
    refine ⟨r, hrun.step fun fuel hfuel => ?_, hr.congr below_object_iff.symm⟩
    rw [docPeek, walkValue]
    exact hfuel

/-- The walk of a whole document. -/
theorem walk_settles (hj : jiter.Reads At) {d : TokenDoc} {s : σ} (hs : At s (tokens d)) :
    ∃ r, Runs (fun fuel => walk jiter config fuel 0 .root s) r ∧
      Settles At [] (Below config.maxDepth d) r := by
  cases hmax : config.maxDepth with
  | zero =>
    refine ⟨(depthError jiter s, s), .intro fun fuel => ?_, .hard (not_below_zero d)⟩
    unfold walk
    rw [if_pos (by omega)]
  | succ n =>
    obtain ⟨t, ts, ht, hpeek⟩ := exists_tokens d
    rw [ht] at hs
    obtain ⟨s', hread, hs'⟩ := hj.peek hs hpeek
    rw [← ht, ← List.append_nil (tokens d)] at hs'
    have hdepth : 0 + (n + 1) = config.maxDepth := by omega
    obtain ⟨r, ⟨N, hN⟩, hr⟩ := walkValue_settles hj d n (jiter.currentIndex s) 0 .root s' [] hdepth
      hs'
    refine ⟨r, ⟨N, fun fuel hfuel => ?_⟩, hr⟩
    change walk jiter config fuel 0 .root s = some r
    unfold walk
    rw [if_neg (by omega), hread]
    exact hN fuel hfuel

end Depth

section Rejection

variable {σ : Type}

/-- A complete document, as the tokenizer reads it. -/
structure IsDocument (jiter : Jiter σ) (At : σ → List JsonToken → Prop) (config : JiterConfig)
    (input : List UInt8) (d : TokenDoc) : Prop where
  reads : At (jiter.new config.allowInfNan config.allowTrailingStrings input) (tokens d)
  notBlank : input.all isAsciiWhitespace = false

/-- With enough fuel, the parser refuses the input for its depth. -/
def RejectsForDepth (jiter : Jiter σ) (config : JiterConfig) (m : MapOrder) (input : List UInt8) :
    Prop :=
  ∃ i, Runs (fun fuel => parsePartial jiter config m fuel input)
    (.error (.invalidJson i (jiter.errorText .recursionLimitExceeded)))

/-- With enough fuel, the parser accepts the input. -/
def Accepts (jiter : Jiter σ) (config : JiterConfig) (m : MapOrder) (input : List UInt8) : Prop :=
  ∃ result, Runs (fun fuel => parsePartial jiter config m fuel input) (.ok result)

variable {jiter : Jiter σ} {At : σ → List JsonToken → Prop} {config : JiterConfig} {m : MapOrder}
  {input : List UInt8} {d : TokenDoc}

theorem not_rejectsForDepth_of_accepts (h : Accepts jiter config m input) :
    ¬RejectsForDepth jiter config m input := by
  rintro ⟨i, hi⟩
  obtain ⟨result, hresult⟩ := h
  cases hi.unique hresult

theorem parsePartial_oversize (hsize : config.maxInputSize < input.length) :
    ¬RejectsForDepth jiter config m input := by
  rintro ⟨i, N, hN⟩
  have hreject := hN N le_rfl
  change parsePartial jiter config m N input = _ at hreject
  unfold parsePartial at hreject
  rw [if_pos (show input.length > config.maxInputSize from hsize)] at hreject
  cases hreject

/-- Past the two guards the result is that of the walk. -/
theorem parsePartial_of_runs {r : WalkOutcome × σ} (hd : IsDocument jiter At config input d)
    (hsize : input.length ≤ config.maxInputSize)
    (hrun : Runs (fun fuel => walk jiter config fuel 0 .root
      (jiter.new config.allowInfNan config.allowTrailingStrings input)) r) :
    Runs (fun fuel => parsePartial jiter config m fuel input)
      (assemble jiter config m input r.1) := by
  obtain ⟨N, hN⟩ := hrun
  refine ⟨N, fun fuel hfuel => ?_⟩
  have hfits : ¬input.length > config.maxInputSize := not_lt.mpr hsize
  have hwalk := hN fuel hfuel
  change walk jiter config fuel 0 .root _ = some r at hwalk
  change parsePartial jiter config m fuel input = _
  unfold parsePartial
  rw [if_neg hfits, hd.notBlank, if_neg Bool.false_ne_true, hwalk]
  rfl

/-- Within the size limit, a document is accepted or refused for its depth. -/
theorem parsePartial_settles (hj : jiter.Reads At) (hd : IsDocument jiter At config input d)
    (hsize : input.length ≤ config.maxInputSize) :
    (Below config.maxDepth d ∧ Accepts jiter config m input) ∨
      (¬Below config.maxDepth d ∧ RejectsForDepth jiter config m input) := by
  obtain ⟨r, hrun, hr⟩ := @walk_settles _ _ _ config hj _ _ hd.reads
  have hparse := @parsePartial_of_runs _ _ _ _ m _ _ _ hd hsize hrun
  cases hr with
  | complete hbelow _ => exact Or.inl ⟨hbelow, _, hparse⟩
  | hard hbelow => exact Or.inr ⟨hbelow, _, hparse⟩

/-- The parser refuses exactly the documents that nest too deep, if and only if this one has nothing
in its innermost containers or nests too deep anyway; or is too long, and nests no deeper. -/
theorem rejectsForDepth_exact_iff (hj : jiter.Reads At)
    (hd : IsDocument jiter At config input d) :
    (RejectsForDepth jiter config m input ↔ ¬Nests config.maxDepth d) ↔
      (input.length ≤ config.maxInputSize → Nests config.maxDepth d → Below config.maxDepth d) ∧
      (config.maxInputSize < input.length → Nests config.maxDepth d) := by
  by_cases hsize : config.maxInputSize < input.length
  · have hreject := @parsePartial_oversize _ jiter config m input hsize
    constructor
    · intro h
      exact ⟨fun hle => absurd hle (not_le.mpr hsize), fun _ => not_not.mp fun hn => hreject (h.mpr hn)⟩
    · exact fun h => iff_of_false hreject (not_not_intro (h.2 hsize))
  · rcases @parsePartial_settles _ _ _ _ m _ _ hj hd (not_lt.mp hsize) with
      ⟨hbelow, haccept⟩ | ⟨hbelow, hreject⟩
    · refine iff_of_true (iff_of_false (not_rejectsForDepth_of_accepts haccept)
        (not_not_intro hbelow.nests)) ⟨fun _ _ => hbelow, fun h => absurd h hsize⟩
    · constructor
      · intro h
        exact ⟨fun _ hn => absurd hn (h.mp hreject), fun h' => absurd h' hsize⟩
      · intro h
        exact iff_of_true hreject fun hn => hbelow (h.1 (not_lt.mp hsize) hn)

end Rejection

section Tape

/-- A tape of tokens, each with the index after it. -/
structure Tape where
  index : ℕ
  rest : List (JsonToken × ℕ)

namespace Tape

def tokens (s : Tape) : List JsonToken := s.rest.map Prod.fst

def next (s : Tape) : Option (JsonToken × Tape) :=
  match s.rest with
  | [] => none
  | (t, index) :: rest => some (t, ⟨index, rest⟩)

theorem next_eq {s : Tape} {t : JsonToken} {ts : List JsonToken} (h : s.tokens = t :: ts) :
    ∃ s', s.next = some (t, s') ∧ s'.tokens = ts := by
  obtain ⟨index, rest⟩ := s
  cases rest with
  | nil => cases h
  | cons e rest =>
    obtain ⟨rfl, rfl⟩ := List.cons.inj h
    exact ⟨⟨e.2, rest⟩, rfl, rfl⟩

def fail (s : Tape) (errorType : JsonErrorType) : JiterError := ⟨errorType, s.index⟩

/-- The kind of the value that is next. -/
def peek (s : Tape) : Except JiterError Peek :=
  match s.next with
  | none => .error (s.fail .eofWhileParsingValue)
  | some (t, _) =>
    match t.peek? with
    | some k => .ok k
    | none => .error (s.fail .expectedSomeValue)

theorem peek_eq {s : Tape} {t : JsonToken} {ts : List JsonToken} {k : Peek}
    (h : s.tokens = t :: ts) (hk : t.peek? = some k) : s.peek = .ok k := by
  obtain ⟨s', hs', -⟩ := next_eq h
  rw [peek, hs']
  simp only [hk]

/-- A key and its colon. -/
def key (s : Tape) : Except JiterError (Option String) × Tape :=
  match s.next with
  | some (.scalar (.string k), s') =>
    match s'.next with
    | some (.colon, s'') => (.ok (some k), s'')
    | _ => (.error (s'.fail .eofWhileParsingObject), s')
  | _ => (.error (s.fail .eofWhileParsingObject), s)

theorem key_eq {s : Tape} {k : String} {ts : List JsonToken} (h : s.tokens = keyTokens k ++ ts) :
    ∃ s', s.key = (.ok (some k), s') ∧ s'.tokens = ts := by
  obtain ⟨s₁, hs₁, h₁⟩ := next_eq h
  obtain ⟨s₂, hs₂, h₂⟩ := next_eq h₁
  refine ⟨s₂, ?_, h₂⟩
  simp only [key, hs₁, hs₂]

def punctuation (b : UInt8) : Option JsonToken :=
  if b = 0x5B then some .openArray
  else if b = 0x5D then some .closeArray
  else if b = 0x7B then some .openObject
  else if b = 0x7D then some .closeObject
  else if b = 0x2C then some .comma
  else if b = 0x3A then some .colon
  else none

/-- The tokens of a text without white space whose numbers are digits and whose strings have one
letter. -/
def lex : ℕ → List UInt8 → List (JsonToken × ℕ)
  | index, 0x22 :: c :: 0x22 :: rest =>
    (.scalar (.string (String.singleton (Char.ofNat c.toNat))), index + 3) :: lex (index + 3) rest
  | index, b :: rest =>
    let t := (punctuation b).getD (.scalar (.number (.int (Int64.ofNat (b.toNat - 0x30)))))
    (t, index + 1) :: lex (index + 1) rest
  | _, [] => []

end Tape

/-- A tokenizer that reads such texts. -/
def tapeJiter : Jiter Tape where
  new _ _ input := ⟨0, Tape.lex 0 input⟩
  peek s := (s.peek, s)
  knownNull s :=
    match s.next with
    | some (.scalar .null, s') => (.ok (), s')
    | _ => (.error (s.fail .expectedSomeValue), s)
  knownBool _ s :=
    match s.next with
    | some (.scalar (.bool b), s') => (.ok b, s')
    | _ => (.error (s.fail .expectedSomeValue), s)
  knownNumber _ s :=
    match s.next with
    | some (.scalar (.number n), s') => (.ok n, s')
    | _ => (.error (s.fail .invalidNumber), s)
  knownStr s :=
    match s.next with
    | some (.scalar (.string str), s') => (.ok str, s')
    | _ => (.error (s.fail .eofWhileParsingString), s)
  knownArray s :=
    match s.next with
    | some (.openArray, s') =>
      match s'.next with
      | none => (.error (s'.fail .eofWhileParsingList), s')
      | some (.closeArray, s'') => (.ok none, s'')
      | some _ => (s'.peek.map some, s')
    | _ => (.error (s.fail .expectedSomeValue), s)
  arrayStep s :=
    match s.next with
    | none => (.error (s.fail .eofWhileParsingList), s)
    | some (.closeArray, s') => (.ok none, s')
    | some (.comma, s') => (s'.peek.map some, s')
    | some _ => (.error (s.fail .expectedListCommaOrEnd), s)
  knownObject s :=
    match s.next with
    | some (.openObject, s') =>
      match s'.next with
      | some (.closeObject, s'') => (.ok none, s'')
      | _ => s'.key
    | _ => (.error (s.fail .expectedSomeValue), s)
  nextKey s :=
    match s.next with
    | none => (.error (s.fail .eofWhileParsingObject), s)
    | some (.closeObject, s') => (.ok none, s')
    | some (.comma, s') => s'.key
    | some _ => (.error (s.fail .expectedObjectCommaOrEnd), s)
  currentIndex s := s.index
  errorText
    | .recursionLimitExceeded => "recursion limit exceeded"
    | .eofWhileParsingList => "EOF while parsing a list"
    | .eofWhileParsingObject => "EOF while parsing an object"
    | .eofWhileParsingString => "EOF while parsing a string"
    | .eofWhileParsingValue => "EOF while parsing a value"
    | .expectedListCommaOrEnd => "expected `,` or `]`"
    | .expectedObjectCommaOrEnd => "expected `,` or `\x7d`"
    | .expectedSomeValue => "expected value"
    | .invalidNumber => "invalid number"
    | .other msg => msg
  parseF64 _ := 0

theorem reads_tapeJiter : tapeJiter.Reads fun s ts => s.tokens = ts where
  peek {s t ts k} hs hk := ⟨s, by simp only [tapeJiter, Tape.peek_eq hs hk], hs⟩
  knownNull {s ts} hs := by
    obtain ⟨s', hnext, hs'⟩ := Tape.next_eq hs
    exact ⟨s', by simp only [tapeJiter, hnext], hs'⟩
  knownBool {s ts b} hs := by
    obtain ⟨s', hnext, hs'⟩ := Tape.next_eq hs
    exact ⟨s', by simp only [tapeJiter, hnext], hs'⟩
  knownNumber {s ts n} hs := by
    obtain ⟨s', hnext, hs'⟩ := Tape.next_eq hs
    exact ⟨s', by simp only [tapeJiter, hnext], hs'⟩
  knownStr {s ts str} hs := by
    obtain ⟨s', hnext, hs'⟩ := Tape.next_eq hs
    exact ⟨s', by simp only [tapeJiter, hnext], hs'⟩
  knownArray {s t ts k} hs hk := by
    obtain ⟨s', hnext, hs'⟩ := Tape.next_eq hs
    obtain ⟨s'', hnext', -⟩ := Tape.next_eq hs'
    refine ⟨s', ?_, hs'⟩
    simp only [tapeJiter, hnext, hnext', Tape.peek_eq hs' hk]
    cases t with
    | closeArray => cases hk
    | _ => rfl
  knownArray_close {s ts} hs := by
    obtain ⟨s', hnext, hs'⟩ := Tape.next_eq hs
    obtain ⟨s'', hnext', hs''⟩ := Tape.next_eq hs'
    exact ⟨s'', by simp only [tapeJiter, hnext, hnext'], hs''⟩
  arrayStep {s t ts k} hs hk := by
    obtain ⟨s', hnext, hs'⟩ := Tape.next_eq hs
    exact ⟨s', by simp only [tapeJiter, hnext, Tape.peek_eq hs' hk]; rfl, hs'⟩
  arrayStep_close {s ts} hs := by
    obtain ⟨s', hnext, hs'⟩ := Tape.next_eq hs
    exact ⟨s', by simp only [tapeJiter, hnext], hs'⟩
  knownObject {s ts key} hs := by
    obtain ⟨s', hnext, hs'⟩ := Tape.next_eq hs
    obtain ⟨s₁, hnext', -⟩ := Tape.next_eq hs'
    obtain ⟨s'', hkey, hs''⟩ := Tape.key_eq hs'
    exact ⟨s'', by simp only [tapeJiter, hnext, hnext', hkey], hs''⟩
  knownObject_close {s ts} hs := by
    obtain ⟨s', hnext, hs'⟩ := Tape.next_eq hs
    obtain ⟨s'', hnext', hs''⟩ := Tape.next_eq hs'
    exact ⟨s'', by simp only [tapeJiter, hnext, hnext'], hs''⟩
  nextKey {s ts key} hs := by
    obtain ⟨s', hnext, hs'⟩ := Tape.next_eq hs
    obtain ⟨s'', hkey, hs''⟩ := Tape.key_eq hs'
    exact ⟨s'', by simp only [tapeJiter, hnext, hkey], hs''⟩
  nextKey_close {s ts} hs := by
    obtain ⟨s', hnext, hs'⟩ := Tape.next_eq hs
    exact ⟨s', by simp only [tapeJiter, hnext], hs'⟩

end Tape

section Examples

/-- Maps that are listed in their own order. -/
def inserted : MapOrder := ⟨fun _ keys => keys, fun _ _ => List.Perm.refl _⟩

/-- A number inside `n` arrays. -/
def nested : ℕ → TokenDoc
  | 0 => .scalar (.number (.int 1))
  | n + 1 => .array [nested n]

def nestedBytes (n : ℕ) : List UInt8 :=
  List.replicate n 0x5B ++ 0x31 :: List.replicate n 0x5D

theorem nests_nested (n : ℕ) : Nests n (nested n) := by
  induction n with
  | zero => exact .scalar 0 _
  | succ n ih => exact .array (List.forall_mem_singleton.mpr ih)

theorem not_below_nested (n : ℕ) : ¬Below n (nested n) := by
  induction n with
  | zero => nofun
  | succ n ih => exact fun h => ih (below_array_iff.mp h _ (List.mem_singleton_self _))

theorem below_nested (n : ℕ) : Below (n + 1) (nested n) := by
  induction n with
  | zero => exact .scalar 0 _
  | succ n ih => exact .array (List.forall_mem_singleton.mpr ih)

theorem isDocument_nested {n : ℕ}
    (h : (Tape.mk 0 (Tape.lex 0 (nestedBytes n))).tokens = tokens (nested n)) :
    IsDocument tapeJiter (fun s ts => s.tokens = ts) .default (nestedBytes n) (nested n) where
  reads := h
  notBlank := by
    have hone : isAsciiWhitespace 0x31 = false := by decide
    rw [nestedBytes, List.all_append, List.all_cons, hone, Bool.false_and, Bool.and_false]

theorem fits_nested {n : ℕ} (h : n ≤ 64) :
    (nestedBytes n).length ≤ JiterConfig.default.maxInputSize := by
  have hlen : (nestedBytes n).length = 2 * n + 1 := by
    simp only [nestedBytes, List.length_append, List.length_replicate, List.length_cons]
    omega
  rw [hlen]
  exact (show 2 * n + 1 ≤ 129 by omega).trans (by decide)

theorem rejectsForDepth_exact_nested :
    RejectsForDepth tapeJiter .default inserted (nestedBytes 63) ↔ ¬Nests 64 (nested 63) :=
  (rejectsForDepth_exact_iff reads_tapeJiter (isDocument_nested (by decide +kernel))).mpr
    ⟨fun _ _ => below_nested 63, fun h => absurd h (not_lt.mpr (fits_nested (by decide)))⟩

/-- A number inside 64 arrays is refused for its depth, though it nests no deeper than the default
limit allows. -/
theorem innermost_counted :
    ¬∀ (σ : Type) (jiter : Jiter σ) (At : σ → List JsonToken → Prop) (config : JiterConfig)
      (m : MapOrder) (input : List UInt8) (d : TokenDoc), jiter.Reads At →
      IsDocument jiter At config input d →
      (RejectsForDepth jiter config m input ↔ ¬Nests config.maxDepth d) := by
  intro h
  have hexact := h Tape tapeJiter _ .default inserted (nestedBytes 64) (nested 64) reads_tapeJiter
    (isDocument_nested (by decide +kernel))
  have hdoc : IsDocument tapeJiter _ .default (nestedBytes 64) (nested 64) :=
    isDocument_nested (by decide +kernel)
  rcases @parsePartial_settles _ _ _ _ inserted _ _ reads_tapeJiter hdoc
      (fits_nested le_rfl) with
    ⟨hbelow, -⟩ | ⟨-, hreject⟩
  · exact not_below_nested 64 hbelow
  · exact hexact.mp hreject (nests_nested 64)

end Examples

end JiterPartialParser

end PJS
