import PJS.Compression.RunTrip

/-! Where the encoder meets the limits of the decoder. The decoder refuses long runs and long
arrays of runs; the encoder writes runs of any length. -/
namespace PJS

/-- No object of the value has a key of a run. -/
inductive Keyless : JsonValue → Prop
  | scalar (s : JsonScalar) : Keyless (.scalar s)
  | object {obj : JsonMap} (hkeys : unmarked (.object obj) = true)
      (h : ∀ k v, (k, v) ∈ obj → Keyless v) : Keyless (.object obj)
  | array {arr : List JsonValue} (h : ∀ x ∈ arr, Keyless x) : Keyless (.array arr)

theorem Keyless.unmarked {v : JsonValue} (h : Keyless v) : unmarked v = true := by
  cases h with
  | scalar s => rfl
  | object hkeys _ => exact hkeys
  | array _ => rfl

/-- The decoder finds no run in a value without the keys. -/
theorem Keyless.readable {v : JsonValue} (h : Keyless v) : Readable v := by
  induction h with
  | scalar s => exact .scalar s
  | object _ _ ih => exact .object ih
  | @array arr h ih =>
    have hnone : ∀ x ∈ arr, run? x = none := fun x hx => (run?_of_unmarked (h x hx).unmarked).1
    refine .array (fun x hx => (run?_of_unmarked (h x hx).unmarked).2) (fun x hx _ => ih x hx) ?_
    rw [sum_runCount_eq_zero hnone]
    exact Nat.zero_le _

section Limits
variable (config : CompressionConfig)

/-- How many elements the code of a run stands for, if the run is coded. The counter is a machine
integer. -/
def codedLength (r : JsonValue × ℕ) : ℕ :=
  if UInt32.ofNat r.2 > config.minFrequencyCount then r.2 % 2 ^ 32 else 0

/-- Wherever the encoder looks for runs, the coded ones keep to the limits of the decoder. -/
inductive WithinLimits : JsonValue → Prop
  | scalar (s : JsonScalar) : WithinLimits (.scalar s)
  | object {obj : JsonMap} (h : ∀ k v, (k, v) ∈ obj → WithinLimits v) : WithinLimits (.object obj)
  | short {arr : List JsonValue} (hlen : arr.length ≤ 2) (h : ∀ x ∈ arr, WithinLimits x) :
    WithinLimits (.array arr)
  | long {arr : List JsonValue} (hlen : 2 < arr.length)
      (hruns : ∀ r ∈ Runs.runsBy JsonValue.canon arr, codedLength config r ≤ maxRleCount)
      (htotal : ((Runs.runsBy JsonValue.canon arr).map (codedLength config)).sum ≤
        maxDecompressedSize) : WithinLimits (.array arr)

/-- Without the keys in it, a run is refused for its length only. -/
theorem Keyless.runAccepted_iff {r : JsonValue × ℕ} (h : Keyless r.1) :
    RunAccepted config r ↔ codedLength config r ≤ maxRleCount := by
  unfold RunAccepted codedLength
  split_ifs
  · exact Iff.rfl
  · exact iff_of_true ⟨(run?_of_unmarked h.unmarked).2, fun _ => h.readable⟩ (Nat.zero_le _)

theorem Keyless.codedCount_eq {r : JsonValue × ℕ} (h : Keyless r.1) :
    codedCount config r = codedLength config r := by
  have hcount : runCount r.1 = 0 := by simp [runCount, (run?_of_unmarked h.unmarked).1]
  unfold codedCount codedLength
  rw [hcount]

theorem Keyless.accepted_iff {v : JsonValue} (h : Keyless v) :
    Accepted config v ↔ WithinLimits config v := by
  induction h with
  | scalar s => exact iff_of_true (.scalar s) (.scalar s)
  | object _ _ ih =>
    constructor
    · intro h
      cases h with
      | object h => exact .object fun k v hmem => (ih k v hmem).mp (h k v hmem)
    · intro h
      cases h with
      | object h => exact .object fun k v hmem => (ih k v hmem).mpr (h k v hmem)
  | @array arr hkeyless ih =>
    have hitem : ∀ x ∈ arr, run? x = none ∧ wellMarked x = true :=
      fun x hx => run?_of_unmarked (hkeyless x hx).unmarked
    have hrun : ∀ r ∈ Runs.runsBy JsonValue.canon arr, Keyless r.1 :=
      fun r hr => hkeyless _ (Runs.mem_runsBy _ hr).1
    have hsum : ((Runs.runsBy JsonValue.canon arr).map (codedCount config)).sum =
        ((Runs.runsBy JsonValue.canon arr).map (codedLength config)).sum := by
      rw [List.map_congr_left fun r hr => (hrun r hr).codedCount_eq config]
    constructor
    · intro h
      cases h with
      | short hlen _ h _ => exact .short hlen fun x hx => (ih x hx).mp (h x hx (hitem x hx).1)
      | long hlen h htotal =>
        exact .long hlen (fun r hr => ((hrun r hr).runAccepted_iff config).mp (h r hr))
          (hsum ▸ htotal)
    · intro h
      cases h with
      | short hlen h =>
        refine .short hlen (fun x hx => (hitem x hx).2) (fun x hx _ => (ih x hx).mpr (h x hx)) ?_
        rw [sum_runCount_eq_zero fun x hx => (hitem x hx).1]
        exact Nat.zero_le _
      | long hlen h htotal =>
        exact .long hlen (fun r hr => ((hrun r hr).runAccepted_iff config).mpr (h r hr))
          (hsum ▸ htotal)

/-- The decoder accepts what the encoder makes of a value exactly if the coded runs keep to the
limits of the decoder. -/
theorem run_length_accepted_iff {v : JsonValue} (h : Keyless v) :
    (∃ w, decompressRunLength (applyRunLengthEncoding config v) = .ok w) ↔
      WithinLimits config v := by
  rw [← h.accepted_iff config]
  constructor
  · rintro ⟨w, hw⟩
    exact ((decompress_encoded_iff config v w).mp hw).1
  · exact fun haccepted => ⟨_, (decompress_encoded_iff config v _).mpr ⟨haccepted, rfl⟩⟩

theorem keyless_fives : Keyless fives := by
  refine .array ?_
  simp only [List.forall_mem_cons]
  exact ⟨.scalar _, .scalar _, .scalar _, by simp⟩

theorem run_length_accepted_fives :
    Keyless fives ∧
    ((∃ w, decompressRunLength (applyRunLengthEncoding .default fives) = .ok w) ↔
      WithinLimits .default fives) :=
  ⟨keyless_fives, run_length_accepted_iff .default keyless_fives⟩

theorem runsFrom_replicate (current : JsonValue) (n m : ℕ) :
    Runs.runsFrom JsonValue.canon current n (List.replicate m current) = [(current, n + m)] := by
  induction m generalizing n with
  | zero => rfl
  | succ m ih => rw [List.replicate_succ, Runs.runsFrom, if_pos rfl, ih, Nat.add_right_comm]; rfl

/-- One element more than the decoder takes in a run. -/
theorem long_run_refused :
    let v : JsonValue := .array (List.replicate 100001 JsonValue.null)
    Keyless v ∧ decompressRunLength (applyRunLengthEncoding .default v) =
      .error (.compressionError "RLE count 100001 exceeds maximum 100000") := by
  refine ⟨.array fun x hx => ?_, ?_⟩
  · rw [List.eq_of_mem_replicate hx]
    exact .scalar _
  · have hlen : 2 < (List.replicate 100001 JsonValue.null).length := by
      rw [List.length_replicate]
      decide
    have hruns : Runs.runsBy JsonValue.canon (List.replicate 100001 JsonValue.null) =
        [(JsonValue.null, 100001)] := runsFrom_replicate JsonValue.null 1 100000
    rw [applyRunLengthEncoding_long .default hlen, hruns]
    rfl

end Limits

end PJS
