import PJS.Domain.JsonData

/-! Nested values by dotted path. Setting a value creates the objects that are missing on the way
down; once one had to be created, nothing below it can be in the way. -/
namespace PJS.JsonData

def isObject : JsonData → Bool
  | .object _ => true
  | _ => false

/-- `split('.')`. -/
def parts (path : String) : List String := (path.toList.splitOn '.').map String.ofList

/-- The loop of `path`, at `current`. -/
def pathFrom : List String → JsonData → Option JsonData
  | [], current => some current
  | part :: parts, .object obj =>
    match obj.lookup part with
    | some current => pathFrom parts current
    | none => none
  | _ :: _, _ => none

/-- Get nested value by path (dot notation). -/
def path (data : JsonData) (path : String) : Option JsonData := pathFrom (parts path) data

section SetPath
variable (last : String) (value : JsonData)

/-- The loop of `set_path` at `current`, and the insertion of the final value; `none` where the
key that was just inserted would be missing. -/
def setPathFrom : List String → JsonData → Option (Bool × JsonData)
  | [], .object obj => some (true, .object (Assoc.insert last value obj))
  | [], current => some (false, current)
  | part :: parts, .object obj =>
    let obj := if part ∈ obj.map Prod.fst then obj else Assoc.insert part (.object []) obj
    match obj.lookup part with
    | none => none
    | some current =>
      (setPathFrom parts current).map fun r => (r.1, .object (Assoc.replace part r.2 obj))
  | _ :: _, current => some (false, current)

end SetPath

/-- Set nested value by path (dot notation). -/
def setPath (data : JsonData) (path : String) (value : JsonData) : Option (Bool × JsonData) :=
  match parts path with
  | [] => some (false, data)
  | [part] =>
    match data with
    | .object obj => some (true, .object (Assoc.insert part value obj))
    | _ => some (false, data)
  | part :: next :: rest =>
    setPathFrom ((next :: rest).getLast (List.cons_ne_nil next rest)) value
      (part :: (next :: rest).dropLast) data

section Laws

theorem parts_ne_nil (path : String) : parts path ≠ [] := by
  unfold parts
  rw [ne_eq, List.map_eq_nil_iff]
  exact List.splitOn_ne_nil _ _

/-- A path with one part is no special case. -/
theorem setPath_eq (data : JsonData) (path : String) (value : JsonData) :
    setPath data path value = setPathFrom ((parts path).getLast (parts_ne_nil path)) value
      (parts path).dropLast data := by
  unfold setPath
  split
  · rename_i hnil
    exact absurd hnil (parts_ne_nil path)
  · rename_i part hparts
    simp only [hparts, List.getLast_singleton, List.dropLast_singleton]
    cases data <;> rfl
  · rename_i part next rest hparts
    simp only [hparts, List.getLast_cons_cons, List.dropLast_cons_cons]

theorem pathFrom_object_cons (part : String) (parts : List String) (obj : List (String × JsonData)) :
    pathFrom (part :: parts) (.object obj) = (obj.lookup part).bind (pathFrom parts) := by
  rw [pathFrom]
  cases obj.lookup part <;> rfl

theorem pathFrom_empty {q : List String} (h : q ≠ []) : pathFrom q (.object []) = none := by
  cases q with
  | nil => exact absurd rfl h
  | cons part q => rfl

/-- A value that is not an object stands on the way down. -/
def Blocked (init : List String) (data : JsonData) : Prop :=
  ∃ before, before <+: init ∧ ∃ x, pathFrom before data = some x ∧ x.isObject = false

theorem not_blocked_empty (init : List String) : ¬ Blocked init (.object []) := by
  rintro ⟨before, -, x, hx, hobject⟩
  cases before with
  | nil =>
    cases hx
    cases hobject
  | cons part before => cases hx

theorem blocked_cons_iff {part : String} {init : List String} {obj : List (String × JsonData)} :
    Blocked (part :: init) (.object obj) ↔ ∃ next, obj.lookup part = some next ∧ Blocked init next := by
  constructor
  · rintro ⟨before, hbefore, x, hx, hobject⟩
    cases before with
    | nil =>
      cases hx
      cases hobject
    | cons key before =>
      obtain ⟨rfl, hrest⟩ := List.cons_prefix_cons.mp hbefore
      rw [pathFrom_object_cons] at hx
      obtain ⟨next, hnext, hx⟩ := Option.bind_eq_some_iff.mp hx
      exact ⟨next, hnext, before, hrest, x, hx, hobject⟩
  · rintro ⟨next, hnext, before, hbefore, x, hx, hobject⟩
    refine ⟨part :: before, List.cons_prefix_cons.mpr ⟨rfl, hbefore⟩, x, ?_, hobject⟩
    rw [pathFrom_object_cons, hnext]
    exact hx

/-- Neither path leads through the other. -/
def Apart (p q : List String) : Prop := ¬ p <+: q ∧ ¬ q <+: p

theorem Apart.of_cons {part : String} {p q : List String} (h : Apart (part :: p) (part :: q)) :
    Apart p q :=
  ⟨fun hpq => h.1 (List.cons_prefix_cons.mpr ⟨rfl, hpq⟩),
    fun hqp => h.2 (List.cons_prefix_cons.mpr ⟨rfl, hqp⟩)⟩

/-- What setting a value at `p` makes of `data`. -/
structure SetAt (p : List String) (value data : JsonData) (ok : Bool) (data' : JsonData) : Prop where
  get : ok = true → pathFrom p data' = some value
  frame : ok = true → ∀ q, Apart p q → pathFrom q data' = pathFrom q data
  unchanged : ok = false → data' = data
  fails_iff : ok = false ↔ Blocked p.dropLast data

/-- The final insertion. -/
theorem setAt_insert (last : String) (value : JsonData) (obj : List (String × JsonData)) :
    SetAt [last] value (.object obj) true (.object (Assoc.insert last value obj)) where
  get _ := by
    rw [pathFrom_object_cons, Assoc.lookup_insert, if_pos rfl]
    rfl
  frame _ q hq := by
    cases q with
    | nil => exact absurd (List.nil_prefix) hq.2
    | cons part q =>
      have hne : part ≠ last := by
        rintro rfl
        exact hq.1 (List.cons_prefix_cons.mpr ⟨rfl, List.nil_prefix⟩)
      rw [pathFrom_object_cons, pathFrom_object_cons, Assoc.lookup_insert, if_neg hne]
  unchanged h := by cases h
  fails_iff := by
    refine iff_of_false (by simp) ?_
    rintro ⟨before, hbefore, x, hx, hobject⟩
    obtain rfl : before = [] := List.prefix_nil.mp hbefore
    cases hx
    cases hobject

/-- What is not an object is left alone. -/
theorem setAt_blocked {p : List String} {value data : JsonData} (h : data.isObject = false) :
    SetAt p value data false data where
  get h := by cases h
  frame h := by cases h
  unchanged _ := rfl
  fails_iff := iff_of_true rfl ⟨[], List.nil_prefix, data, rfl, h⟩

/-- One step down: into a value that was there, or into an object that was not. -/
theorem SetAt.cons {part : String} {p : List String} {value next next' : JsonData} {ok : Bool}
    (hp : p ≠ []) {obj obj' : List (String × JsonData)} (hstep : SetAt p value next ok next')
    (hobj : obj.lookup part = some next ∧ obj' = obj ∨
      obj.lookup part = none ∧ next = .object [] ∧ obj' = Assoc.insert part next obj) :
    SetAt (part :: p) value (.object obj) ok (.object (Assoc.replace part next' obj')) := by
  have hnext : obj'.lookup part = some next := by
    rcases hobj with ⟨hlookup, rfl⟩ | ⟨-, -, rfl⟩
    · exact hlookup
    · rw [Assoc.lookup_insert, if_pos rfl]
  have hother : ∀ key, key ≠ part → obj'.lookup key = obj.lookup key := by
    intro key hne
    rcases hobj with ⟨-, rfl⟩ | ⟨-, -, rfl⟩
    · rfl
    · rw [Assoc.lookup_insert, if_neg hne]
  have hlookup : (Assoc.replace part next' obj').lookup part = some next' := by
    rw [Assoc.lookup_replace, if_pos rfl, hnext]
    rfl
  refine ⟨fun hok => ?_, fun hok q hq => ?_, fun hfail => ?_, ?_⟩
  · rw [pathFrom_object_cons, hlookup]
    exact hstep.get hok
  · cases q with
    | nil => exact absurd List.nil_prefix hq.2
    | cons key q =>
      by_cases hkey : key = part
      · subst hkey
        have hq' := hq.of_cons
        rw [pathFrom_object_cons, pathFrom_object_cons, hlookup, Option.bind_some,
          hstep.frame hok q hq']
        rcases hobj with ⟨hold, -⟩ | ⟨hold, rfl, -⟩
        · rw [hold, Option.bind_some]
        · -- the object was created: there was nothing below the key before
          have hne : q ≠ [] := by
            rintro rfl
            exact hq'.2 List.nil_prefix
          rw [hold, pathFrom_empty hne]
          rfl
      · rw [pathFrom_object_cons, pathFrom_object_cons, Assoc.lookup_replace, if_neg hkey,
          hother key hkey]
  · have hblocked := hstep.fails_iff.mp hfail
    rcases hobj with ⟨hold, rfl⟩ | ⟨-, rfl, -⟩
    · rw [hstep.unchanged hfail, Assoc.replace_of_lookup hold]
    · exact absurd hblocked (not_blocked_empty _)
  · rw [List.dropLast_cons_of_ne_nil hp, blocked_cons_iff, hstep.fails_iff]
    rcases hobj with ⟨hold, -⟩ | ⟨hold, rfl, -⟩
    · simp [hold]
    · simp [hold, not_blocked_empty]

theorem setPathFrom_setAt (last : String) (value : JsonData) (init : List String)
    (data : JsonData) : ∃ ok data', setPathFrom last value init data = some (ok, data') ∧
      SetAt (init ++ [last]) value data ok data' := by
  induction init generalizing data with
  | nil =>
    cases data with
    | object obj => exact ⟨true, _, rfl, setAt_insert last value obj⟩
    | array arr => exact ⟨false, _, rfl, setAt_blocked rfl⟩
    | scalar s => exact ⟨false, _, rfl, setAt_blocked rfl⟩
  | cons part init ih =>
    cases data with
    | array arr => exact ⟨false, _, rfl, setAt_blocked rfl⟩
    | scalar s => exact ⟨false, _, rfl, setAt_blocked rfl⟩
    | object obj =>
      have hne : init ++ [last] ≠ [] := by simp
      by_cases hmem : part ∈ obj.map Prod.fst
      · obtain ⟨next, hnext⟩ := Assoc.exists_lookup hmem
        obtain ⟨ok, next', hset, hstep⟩ := ih next
        refine ⟨ok, _, ?_, hstep.cons hne (Or.inl ⟨hnext, rfl⟩)⟩
        rw [setPathFrom]
        simp only [hmem, if_true, hnext, hset, Option.map_some]
      · have hnone := Assoc.lookup_eq_none_iff_notMem.mpr hmem
        obtain ⟨ok, next', hset, hstep⟩ := ih (.object [])
        refine ⟨ok, _, ?_, hstep.cons hne (Or.inr ⟨hnone, rfl, rfl⟩)⟩
        rw [setPathFrom]
        simp only [hmem, if_false, Assoc.lookup_insert, if_true, hset, Option.map_some]

/-- Setting a value by path puts it there and changes nothing on paths that lead elsewhere. It
fails, and then changes nothing at all, exactly if a value above the place is not an object. -/
theorem setPath_spec (data : JsonData) (p : String) (value : JsonData) :
    ∃ ok data', data.setPath p value = some (ok, data') ∧
      (ok = true → data'.path p = some value ∧
        ∀ q, ¬ parts p <+: parts q → ¬ parts q <+: parts p → data'.path q = data.path q) ∧
      (ok = false → data' = data) ∧
      (ok = false ↔ ∃ above, above <+: parts p ∧ above ≠ parts p ∧
        ∃ x, pathFrom above data = some x ∧ x.isObject = false) := by
  obtain ⟨ok, data', hset, hspec⟩ := setPathFrom_setAt ((parts p).getLast (parts_ne_nil p)) value
    (parts p).dropLast data
  rw [List.dropLast_append_getLast (parts_ne_nil p)] at hspec
  refine ⟨ok, data', (setPath_eq data p value).trans hset, fun hok => ?_, hspec.unchanged, ?_⟩
  · exact ⟨hspec.get hok, fun q hpq hqp => hspec.frame hok (parts q) ⟨hpq, hqp⟩⟩
  · rw [hspec.fails_iff]
    constructor
    · rintro ⟨above, habove, x, hx⟩
      refine ⟨above, habove.trans (List.dropLast_prefix _), ?_, x, hx⟩
      rintro rfl
      have hlen := habove.length_le
      have hpos := List.length_pos_of_ne_nil (parts_ne_nil p)
      rw [List.length_dropLast] at hlen
      omega
    · rintro ⟨above, habove, hne, x, hx⟩
      refine ⟨above, ?_, x, hx⟩
      have hlt : above.length < (parts p).length := by
        refine lt_of_le_of_ne habove.length_le fun heq => ?_
        exact hne (habove.eq_of_length heq)
      refine List.prefix_of_prefix_length_le habove (List.dropLast_prefix _) ?_
      rw [List.length_dropLast]
      omega

end Laws

end PJS.JsonData
