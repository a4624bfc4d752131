import Mathlib

/-! Splitting text that arrives in pieces: the parts before the last separator are complete, the
rest is carried over to the next piece. -/
namespace PJS.Lines

variable {α : Type} [DecidableEq α] (sep : α)

/-- The complete parts of what was carried over and a new piece, and what is carried over next. -/
def feed (buffer piece : List α) : List (List α) × List α :=
  (((buffer ++ piece).splitOn sep).dropLast, ((buffer ++ piece).splitOn sep).getLast?.getD [])

def feedAll (buffer : List α) : List (List α) → List (List α) × List α
  | [] => ([], buffer)
  | piece :: rest =>
    ((feed sep buffer piece).1 ++ (feedAll (feed sep buffer piece).2 rest).1,
      (feedAll (feed sep buffer piece).2 rest).2)

theorem splitOn_eq_concat (l : List α) :
    l.splitOn sep = (l.splitOn sep).dropLast ++ [(l.splitOn sep).getLast?.getD []] := by
  have hne : l.splitOn sep ≠ [] := List.splitOn_ne_nil sep l
  rw [List.getLast?_eq_some_getLast hne, Option.getD_some, List.dropLast_append_getLast]

theorem splitOn_cons (x : α) (l : List α) :
    (x :: l).splitOn sep =
      if x = sep then [] :: l.splitOn sep else (l.splitOn sep).modifyHead (x :: ·) := by
  simp only [List.splitOn_cons_eq_if_modifyHead, beq_iff_eq]

/-- Text is split as if the last part of its beginning were put before the rest. -/
theorem splitOn_append (l rest : List α) :
    (l ++ rest).splitOn sep = (l.splitOn sep).dropLast ++
      ((l.splitOn sep).getLast?.getD [] ++ rest).splitOn sep := by
  induction l with
  | nil => rfl
  | cons x l ih =>
    rw [List.cons_append, splitOn_cons, splitOn_cons, ih]
    have hne : l.splitOn sep ≠ [] := List.splitOn_ne_nil sep l
    split_ifs with hx
    · rw [List.dropLast_cons_of_ne_nil hne, List.getLast?_cons_of_ne_nil hne, List.cons_append]
    · rcases hparts : l.splitOn sep with _ | ⟨part, _ | ⟨next, parts⟩⟩
      · exact absurd hparts hne
      · change _ = ((x :: part) ++ rest).splitOn sep
        rw [List.cons_append, splitOn_cons, if_neg hx]
        rfl
      · rfl

theorem notMem_of_mem_splitOn {l part : List α} (h : part ∈ l.splitOn sep) : sep ∉ part := by
  induction l generalizing part with
  | nil =>
    rw [List.splitOn_nil, List.mem_singleton] at h
    simp [h]
  | cons x l ih =>
    rw [splitOn_cons] at h
    split_ifs at h with hx
    · rcases List.mem_cons.mp h with rfl | h
      · simp
      · exact ih h
    · rcases hparts : l.splitOn sep with _ | ⟨first, parts⟩
      · exact absurd hparts (List.splitOn_ne_nil sep l)
      · rw [hparts] at h ih
        rcases List.mem_cons.mp h with rfl | h
        · exact List.not_mem_cons_of_ne_of_not_mem (Ne.symm hx) (ih List.mem_cons_self)
        · exact ih (List.mem_cons_of_mem first h)

theorem notMem_feed (buffer piece : List α) : sep ∉ (feed sep buffer piece).2 := by
  refine notMem_of_mem_splitOn sep (l := buffer ++ piece) ?_
  rw [splitOn_eq_concat]
  exact List.mem_append_right _ (List.mem_singleton_self _)

/-- However the text is cut, the complete parts and the part carried over are those of the whole. -/
theorem feedAll_eq (buffer : List α) (pieces : List (List α)) (hbuffer : sep ∉ buffer) :
    feedAll sep buffer pieces = feed sep buffer pieces.flatten := by
  induction pieces generalizing buffer with
  | nil =>
    rw [feedAll, feed, List.flatten_nil, List.append_nil, List.splitOn_eq_singleton hbuffer]
    rfl
  | cons piece rest ih =>
    have hsplit := splitOn_append sep (buffer ++ piece) rest.flatten
    have hne : ((feed sep buffer piece).2 ++ rest.flatten).splitOn sep ≠ [] :=
      List.splitOn_ne_nil sep _
    rw [feedAll, ih _ (notMem_feed sep buffer piece), List.flatten_cons]
    simp only [feed, ← List.append_assoc] at hne ⊢
    rw [hsplit, List.dropLast_append_of_ne_nil hne, List.getLast?_append_of_ne_nil _ hne]

/-- Parts that each end in a separator are all complete. -/
theorem feed_terminated {parts : List (List α)} (h : ∀ part ∈ parts, sep ∉ part) :
    feed sep [] (parts.flatMap (· ++ [sep])) = (parts, []) := by
  have hsplit : (parts.flatMap (· ++ [sep])).splitOn sep = parts ++ [[]] := by
    induction parts with
    | nil => rfl
    | cons part parts ih =>
      rw [List.flatMap_cons, List.append_assoc, List.singleton_append,
        List.splitOn_append_cons_self_of_not_mem (h part (by simp)),
        ih fun p hp => h p (by simp [hp]), List.cons_append]
  rw [feed, List.nil_append, hsplit, List.dropLast_concat, List.getLast?_concat]
  rfl

theorem feed_of_not_ended {text : List α} (h : sep ∉ text) : feed sep [] text = ([], text) := by
  rw [feed, List.nil_append, List.splitOn_eq_singleton h]
  rfl

theorem feed_line {line : List α} (h : sep ∉ line) (more : List α) :
    feed sep [] (line ++ sep :: more) = (line :: (feed sep [] more).1, (feed sep [] more).2) := by
  have hne : more.splitOn sep ≠ [] := List.splitOn_ne_nil sep more
  rw [feed, feed, List.nil_append, List.nil_append, List.splitOn_append_cons_self_of_not_mem h,
    List.dropLast_cons_of_ne_nil hne, List.getLast?_cons_of_ne_nil hne]

section Cut
variable {β : Type}

/-- How many of the lines are among the first `n` characters, with their line ends or without. -/
def whole (ending : ℕ) : List (List β) → ℕ → ℕ
  | [], _ => 0
  | line :: rest, n =>
    if n < line.length + ending then 0 else whole ending rest (n - (line.length + 1)) + 1

theorem whole_mono (ending : ℕ) (lines : List (List β)) {n n' : ℕ} (h : n ≤ n') :
    whole ending lines n ≤ whole ending lines n' := by
  induction lines generalizing n n' with
  | nil => exact le_refl 0
  | cons line rest ih =>
    have hle : n - (line.length + 1) ≤ n' - (line.length + 1) := by omega
    have hrest := ih hle
    rw [whole, whole]
    split_ifs with hn hn'
    · exact le_refl 0
    · exact Nat.zero_le _
    · omega
    · omega

theorem whole_length (sep : β) {ending : ℕ} (hending : ending ≤ 1) (lines : List (List β)) :
    whole ending lines (lines.flatMap (· ++ [sep])).length = lines.length := by
  induction lines with
  | nil => rfl
  | cons line rest ih =>
    have hlength : ((line :: rest).flatMap (· ++ [sep])).length =
        line.length + 1 + (rest.flatMap (· ++ [sep])).length := by
      rw [List.flatMap_cons, List.length_append, List.length_append, List.length_singleton]
    rw [whole, hlength, if_neg (by omega), Nat.add_sub_cancel_left, ih, List.length_cons]

/-- The beginning of a text: either the first line is not ended, or it is there and the rest is
a beginning. -/
theorem prefix_line {mark : β} {line text rest : List β} (h : text <+: line ++ mark :: rest) :
    text <+: line ∨ ∃ more, text = line ++ mark :: more ∧ more <+: rest := by
  by_cases hshort : text.length ≤ line.length
  · exact Or.inl (List.prefix_of_prefix_length_le h (List.prefix_append _ _) hshort)
  · right
    obtain ⟨more, rfl⟩ := List.prefix_of_prefix_length_le (List.prefix_append line _) h (by omega)
    rw [List.prefix_append_right_inj] at h
    cases more with
    | nil => simp at hshort
    | cons c more =>
      obtain ⟨rfl, hmore⟩ := List.cons_prefix_cons.mp h
      exact ⟨more, rfl, hmore⟩

end Cut

end PJS.Lines
