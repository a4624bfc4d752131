import Mathlib

/-! Reading a list page by page: every page says whether more follow, and the reader goes on while
they do. -/
namespace PJS.Paging

variable {α ε : Type*}

/-- The pages from an offset on, one after another, while there are more. Each page starts `limit`
after the one before it. The first argument bounds the number of pages. -/
def readPages (fetch : ℕ → Except ε (List α × Bool)) (limit : ℕ) :
    ℕ → ℕ → Except ε (Option (List α))
  | 0, _ => .ok none
  | fuel + 1, offset => do
    let (items, more) ← fetch offset
    if more then
      let rest ← readPages fetch limit fuel (offset + limit)
      return rest.map (items ++ ·)
    else return some items

/-- The page of a list at an offset, and whether the list goes on behind it. -/
def cut (l : List α) (limit offset : ℕ) : List α × Bool :=
  ((l.drop offset).take limit, decide (offset + ((l.drop offset).take limit).length < l.length))

variable {l : List α} {limit offset : ℕ}

theorem cut_last (h : l.length ≤ offset + limit) : cut l limit offset = (l.drop offset, false) := by
  have hitems : (l.drop offset).take limit = l.drop offset := by
    apply List.take_of_length_le
    rw [List.length_drop]
    omega
  unfold cut
  rw [hitems, List.length_drop]
  exact congrArg _ (decide_eq_false (by omega))

theorem cut_more (h : offset + limit < l.length) :
    cut l limit offset = ((l.drop offset).take limit, true) := by
  have hlength : ((l.drop offset).take limit).length = limit := by
    rw [List.length_take, List.length_drop]
    omega
  unfold cut
  rw [hlength]
  exact congrArg _ (decide_eq_true h)

/-- Pages that are cut from one list, one behind the other, are that list. -/
theorem readPages_eq {fetch : ℕ → Except ε (List α × Bool)} (hlimit : 0 < limit)
    (hfetch : ∀ i, i ≤ l.length → fetch i = .ok (cut l limit i)) {fuel : ℕ}
    (hoffset : offset ≤ l.length) (hfuel : l.length - offset < fuel) :
    readPages fetch limit fuel offset = .ok (some (l.drop offset)) := by
  induction fuel generalizing offset with
  | zero => omega
  | succ fuel ih =>
    unfold readPages
    rw [hfetch offset hoffset]
    by_cases hmore : offset + limit < l.length
    · have hrest := ih (show offset + limit ≤ l.length by omega) (by omega)
      have happend : (l.drop offset).take limit ++ l.drop (offset + limit) = l.drop offset := by
        rw [← List.drop_drop, List.take_append_drop]
      rw [cut_more hmore]
      show (readPages fetch limit fuel (offset + limit) >>= _) = _
      rw [hrest]
      exact congrArg (fun items => Except.ok (some items)) happend
    · rw [cut_last (not_lt.mp hmore)]
      rfl

/-- Reading from the start answers with the whole list. -/
theorem readPages_zero {fetch : ℕ → Except ε (List α × Bool)} {fuel : ℕ} (hlimit : 0 < limit)
    (hfetch : ∀ i, i ≤ l.length → fetch i = .ok (cut l limit i)) (hfuel : l.length < fuel) :
    readPages fetch limit fuel 0 = .ok (some l) :=
  readPages_eq hlimit hfetch (Nat.zero_le _) hfuel

end PJS.Paging
