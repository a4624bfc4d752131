import Mathlib

/-! A log that retains the last entries appended to it, and readers who follow it by the greatest
key they have received. What a reader has received is an initial part of the entries it wants and
has not missed, where an entry is missed when the log drops it before the reader got that far. -/
namespace PJS.Feed

variable {α κ : Type*}

/-- What a log of capacity `cap` retains of all entries. -/
def retained (cap : ℕ) (all : List α) : List α := all.drop (all.length - cap)

/-- Append one entry, dropping the oldest one of a full log. -/
def push (cap : ℕ) (log : List α) (a : α) : List α :=
  (if cap ≤ log.length then log.tail else log) ++ [a]

section Retained
variable {cap : ℕ} {all : List α}

theorem length_retained : (retained cap all).length = min cap all.length := by
  rw [retained, List.length_drop]
  omega

theorem retained_suffix (cap : ℕ) (all : List α) : retained cap all <:+ all :=
  List.drop_suffix _ all

theorem push_retained (hcap : 0 < cap) (a : α) :
    push cap (retained cap all) a = retained cap (all ++ [a]) := by
  have hlen : (all ++ [a]).length = all.length + 1 := by simp
  rw [push, length_retained]
  by_cases hfull : cap ≤ all.length
  · have hdrop : all.length + 1 - cap = all.length - cap + 1 := by omega
    rw [if_pos (by omega), retained, retained, hlen, hdrop, List.tail_drop,
      List.drop_append_of_le_length (by omega)]
  · have hall : all.length + 1 - cap = 0 := by omega
    have hall' : all.length - cap = 0 := by omega
    rw [if_neg (by omega), retained, retained, hlen, hall, hall', List.drop_zero, List.drop_zero]

/-- Appending entries one at a time retains the last of all of them. -/
theorem foldl_push_retained (hcap : 0 < cap) (new : List α) :
    new.foldl (push cap) (retained cap all) = retained cap (all ++ new) := by
  induction new generalizing all with
  | nil => rw [List.foldl_nil, List.append_nil]
  | cons a new ih =>
    rw [List.foldl_cons, push_retained hcap, ih, List.append_assoc, List.singleton_append]

theorem mem_of_mem_retained_append {new : List α} {a : α} (h : a ∈ retained cap (all ++ new)) :
    a ∈ retained cap all ∨ a ∈ new := by
  rw [retained, List.drop_append] at h
  rcases List.mem_append.mp h with h | h
  · have hle : all.length - cap ≤ (all ++ new).length - cap := by
      rw [List.length_append]
      omega
    exact Or.inl (List.drop_subset_drop_left all hle h)
  · exact Or.inr (List.mem_of_mem_drop h)

/-- The oldest entries, which a log of capacity `cap` drops when new ones are appended. -/
def aged (cap : ℕ) (all new : List α) : List α :=
  ((all ++ new).take ((all ++ new).length - cap)).drop (all.length - cap)

theorem retained_append (cap : ℕ) (all new : List α) :
    retained cap all ++ new = aged cap all new ++ retained cap (all ++ new) := by
  have hlen : (all ++ new).length = all.length + new.length := List.length_append
  have hold : (all ++ new).drop (all.length - cap) = retained cap all ++ new :=
    List.drop_append_of_le_length (Nat.sub_le _ _)
  rw [← hold]
  conv_lhs => rw [← List.take_append_drop ((all ++ new).length - cap) (all ++ new)]
  refine List.drop_append_of_le_length ?_
  rw [List.length_take]
  omega

end Retained

section Readers
variable [LinearOrder κ] (key : α → κ)

/-- A reader that has received these entries has not come as far as `a`. -/
def Beyond (received : List α) (a : α) : Prop := ∀ r ∈ received, key r < key a

instance (received : List α) : DecidablePred (Beyond key received) := fun a =>
  inferInstanceAs (Decidable (∀ r ∈ received, key r < key a))

/-- The wanted entries of the log that the reader has yet to receive. -/
def ahead (wanted : α → Bool) (received log : List α) : List α :=
  log.filter fun a => wanted a && decide (Beyond key received a)

variable {key} {wanted : α → Bool} {received log : List α}

theorem mem_ahead {a : α} :
    a ∈ ahead key wanted received log ↔ a ∈ log ∧ wanted a ∧ Beyond key received a := by
  rw [ahead, List.mem_filter, Bool.and_eq_true, decide_eq_true_eq]

theorem not_mem_of_beyond {a : α} (h : Beyond key received a) : a ∉ received :=
  fun hmem => lt_irrefl _ (h a hmem)

end Readers

section Follows
variable [LinearOrder κ] (key : α → κ) [DecidableEq α]

/-- The wanted entries a reader does not miss. -/
def due (wanted : α → Bool) (missed all : List α) : List α :=
  all.filter fun a => wanted a && decide (a ∉ missed)

/-- What a reader misses when the log changes: wanted entries it has not come as far as, and
which the changed log does not hold. -/
def dropped (wanted : α → Bool) (received log new log' : List α) : List α :=
  (ahead key wanted received (log ++ new)).filter (· ∉ log')

/-- Where a reader stands: what it received starts what is due to it, the rest of it is in the
log, and what it missed is gone for good. -/
structure Follows (wanted : α → Bool) (all log received missed : List α) : Prop where
  received_prefix : received <+: due wanted missed all
  in_log : ∀ a ∈ due wanted missed all, a ∉ received → a ∈ log
  gone : ∀ a ∈ missed, a ∈ all ∧ wanted a ∧ a ∉ log ∧ a ∉ received

variable {key} {wanted : α → Bool} {all log log' received missed new : List α}

theorem mem_due {a : α} : a ∈ due wanted missed all ↔ a ∈ all ∧ wanted a ∧ a ∉ missed := by
  rw [due, List.mem_filter, Bool.and_eq_true, decide_eq_true_eq]

theorem mem_dropped {a : α} : a ∈ dropped key wanted received log new log' ↔
    a ∈ log ++ new ∧ wanted a ∧ Beyond key received a ∧ a ∉ log' := by
  rw [dropped, List.mem_filter, mem_ahead, decide_eq_true_eq, and_assoc, and_assoc]

/-- A log that retains the last entries drops the oldest ones. -/
theorem dropped_retained {cap : ℕ} (hall : (all ++ new).Nodup) :
    dropped key wanted received (retained cap all) new (retained cap (all ++ new)) =
      ahead key wanted received (aged cap all new) := by
  have hapart : (aged cap all new ++ retained cap (all ++ new)).Nodup := by
    rw [← retained_append]
    exact hall.sublist ((retained_suffix cap all).sublist.append_right new)
  have hdisjoint := List.disjoint_of_nodup_append hapart
  have hkept : (ahead key wanted received (aged cap all new)).filter
      (· ∉ retained cap (all ++ new)) = ahead key wanted received (aged cap all new) :=
    List.filter_eq_self.mpr fun a ha =>
      decide_eq_true (hdisjoint (List.mem_of_mem_filter ha))
  have hnone : (ahead key wanted received (retained cap (all ++ new))).filter
      (· ∉ retained cap (all ++ new)) = [] :=
    List.filter_eq_nil_iff.mpr fun a ha h =>
      of_decide_eq_true h (List.mem_of_mem_filter ha)
  rw [dropped, retained_append, ahead, List.filter_append, ← ahead, ← ahead, List.filter_append,
    hkept, hnone, List.append_nil]

theorem follows_nil (wanted : α → Bool) : Follows wanted [] [] [] [] where
  received_prefix := List.nil_prefix
  in_log a ha _ := by simp [due] at ha
  gone a ha := by simp at ha

/-- What is due beyond what was received comes after it. -/
theorem Follows.beyond (h : Follows wanted all log received missed)
    (hall : all.Pairwise fun x y => key x < key y) {a : α} (ha : a ∈ due wanted missed all)
    (hr : a ∉ received) : Beyond key received a := by
  obtain ⟨rest, hrest⟩ := h.received_prefix
  have hsorted : (received ++ rest).Pairwise fun x y => key x < key y := by
    rw [hrest]
    exact hall.filter _
  have hmem : a ∈ rest := by
    rw [← hrest] at ha
    exact (List.mem_append.mp ha).resolve_left hr
  intro r hr
  exact (List.pairwise_append.mp hsorted).2.2 r hr a hmem

theorem Follows.received_mem (h : Follows wanted all log received missed) {a : α}
    (ha : a ∈ received) : a ∈ all ∧ wanted a ∧ a ∉ missed :=
  mem_due.mp (h.received_prefix.subset ha)

theorem Follows.pairwise_received (h : Follows wanted all log received missed)
    (hall : all.Pairwise fun x y => key x < key y) :
    received.Pairwise fun x y => key x < key y :=
  List.Pairwise.sublist h.received_prefix.sublist (hall.filter _)

/-- Entries are appended and the log changes; what it drops too early is missed. -/
theorem Follows.append (h : Follows wanted all log received missed)
    (hall : (all ++ new).Pairwise fun x y => key x < key y)
    (hlog : ∀ a ∈ log', a ∈ log ∨ a ∈ new) (hsub : ∀ a ∈ log, a ∈ all) :
    Follows wanted (all ++ new) log' received
      (missed ++ dropped key wanted received log new log') := by
  obtain ⟨hold, -, habove⟩ := List.pairwise_append.mp hall
  have hfresh : ∀ a ∈ all, a ∉ new := fun a ha hn => lt_irrefl _ (habove a ha a hn)
  refine ⟨?_, ?_, ?_⟩
  · -- nothing that was received is among the newly missed
    have hkeep : ∀ a ∈ received, a ∉ dropped key wanted received log new log' := by
      intro a ha hd
      exact not_mem_of_beyond (mem_dropped.mp hd).2.2.1 ha
    have hdue : due wanted (missed ++ dropped key wanted received log new log') all =
        (due wanted missed all).filter (· ∉ dropped key wanted received log new log') := by
      rw [due, due, List.filter_filter]
      refine List.filter_congr fun a _ => ?_
      simp only [List.mem_append, not_or, Bool.decide_and]
      rw [← Bool.and_assoc, Bool.and_comm]
    obtain ⟨rest, hrest⟩ := h.received_prefix
    have hreceived : received.filter (· ∉ dropped key wanted received log new log') = received :=
      List.filter_eq_self.mpr fun a ha => decide_eq_true (hkeep a ha)
    rw [due, List.filter_append, ← due, ← due, hdue, ← hrest, List.filter_append, hreceived,
      List.append_assoc]
    exact List.prefix_append _ _
  · intro a ha hr
    obtain ⟨hmem, hw, hm⟩ := mem_due.mp ha
    obtain ⟨hmissed, hdropped⟩ := not_or.mp (List.mem_append.not.mp hm)
    by_contra hgone
    refine hdropped (mem_dropped.mpr ?_)
    rcases List.mem_append.mp hmem with hmem | hmem
    · have hdue := mem_due.mpr ⟨hmem, hw, hmissed⟩
      exact ⟨List.mem_append_left _ (h.in_log a hdue hr), hw, h.beyond hold hdue hr, hgone⟩
    · refine ⟨List.mem_append_right _ hmem, hw, fun r hr => ?_, hgone⟩
      exact habove r (h.received_mem hr).1 a hmem
  · intro a ha
    rcases List.mem_append.mp ha with ha | ha
    · obtain ⟨hmem, hw, hgone, hr⟩ := h.gone a ha
      refine ⟨List.mem_append_left _ hmem, hw, fun hlog' => ?_, hr⟩
      exact (hlog a hlog').elim hgone (hfresh a hmem)
    · obtain ⟨hmem, hw, hb, hgone⟩ := mem_dropped.mp ha
      refine ⟨?_, hw, hgone, not_mem_of_beyond hb⟩
      exact List.mem_append.mpr ((List.mem_append.mp hmem).imp_left (hsub a))

/-- What is due but not received is what the log has ahead of the reader. -/
theorem Follows.rest_eq (h : Follows wanted all log received missed)
    (hall : all.Pairwise fun x y => key x < key y) (hlog : log <:+ all) {rest : List α}
    (hrest : received ++ rest = due wanted missed all) : rest = ahead key wanted received log := by
  have hsorted : (received ++ rest).Pairwise fun x y => key x < key y := by
    rw [hrest]
    exact hall.filter _
  obtain ⟨-, -, habove⟩ := List.pairwise_append.mp hsorted
  have hreceived : received.filter (fun a => decide (Beyond key received a)) = [] :=
    List.filter_eq_nil_iff.mpr fun a ha hb => not_mem_of_beyond (decide_eq_true_eq.mp hb) ha
  have hbeyond : rest.filter (fun a => decide (Beyond key received a)) = rest :=
    List.filter_eq_self.mpr fun a ha => decide_eq_true fun r hr => habove r hr a ha
  obtain ⟨old, hold⟩ := hlog
  -- an entry before the log that is due and was not received would be in the log as well
  have hnone : (due wanted missed old).filter (fun a => decide (Beyond key received a)) = [] := by
    refine List.filter_eq_nil_iff.mpr fun a ha hb => ?_
    obtain ⟨hmem, hw, hm⟩ := mem_due.mp ha
    have hdue : a ∈ due wanted missed all :=
      mem_due.mpr ⟨hold ▸ List.mem_append_left log hmem, hw, hm⟩
    have hin := h.in_log a hdue (not_mem_of_beyond (decide_eq_true_eq.mp hb))
    rw [← hold] at hall
    exact lt_irrefl _ ((List.pairwise_append.mp hall).2.2 a hmem a hin)
  have hkept : due wanted missed log = log.filter wanted := by
    refine List.filter_congr fun a ha => ?_
    have hm : a ∉ missed := fun hm => (h.gone a hm).2.2.1 ha
    rw [decide_eq_true hm, Bool.and_true]
  calc rest
      = (received ++ rest).filter (fun a => decide (Beyond key received a)) := by
        rw [List.filter_append, hreceived, List.nil_append, hbeyond]
    _ = (due wanted missed (old ++ log)).filter (fun a => decide (Beyond key received a)) := by
        rw [hrest, hold]
    _ = (log.filter wanted).filter (fun a => decide (Beyond key received a)) := by
        rw [due, List.filter_append, ← due, ← due, List.filter_append, hnone, List.nil_append,
          hkept]
    _ = ahead key wanted received log := by
        rw [List.filter_filter, ahead]
        exact List.filter_congr fun a _ => Bool.and_comm _ _

/-- The reader receives the first entries the log has ahead of it. -/
theorem Follows.receive (h : Follows wanted all log received missed)
    (hall : all.Pairwise fun x y => key x < key y) (hlog : log <:+ all) {page : List α}
    (hpage : page <+: ahead key wanted received log) :
    Follows wanted all log (received ++ page) missed := by
  obtain ⟨rest, hrest⟩ := h.received_prefix
  rw [← h.rest_eq hall hlog hrest] at hpage
  refine ⟨?_, ?_, ?_⟩
  · rw [← hrest]
    exact (List.prefix_append_right_inj received).mpr hpage
  · intro a ha hr
    exact h.in_log a ha fun hr' => hr (List.mem_append_left page hr')
  · intro a ha
    obtain ⟨hmem, hw, hgone, hr⟩ := h.gone a ha
    refine ⟨hmem, hw, hgone, fun hr' => ?_⟩
    rcases List.mem_append.mp hr' with hr' | hr'
    · exact hr hr'
    · have hdue : a ∈ due wanted missed all := by
        rw [← hrest]
        exact List.mem_append_right received (hpage.subset hr')
      exact (mem_due.mp hdue).2.2 ha

/-- The reader has received what is due up to where it has come. -/
theorem Follows.received_eq (h : Follows wanted all log received missed)
    (hall : all.Pairwise fun x y => key x < key y) :
    received = (due wanted missed all).filter fun a => decide (¬ Beyond key received a) := by
  obtain ⟨rest, hrest⟩ := h.received_prefix
  have hsorted : (received ++ rest).Pairwise fun x y => key x < key y := by
    rw [hrest]
    exact hall.filter _
  obtain ⟨-, -, habove⟩ := List.pairwise_append.mp hsorted
  have hreceived : received.filter (fun a => decide (¬ Beyond key received a)) = received :=
    List.filter_eq_self.mpr fun a ha => decide_eq_true fun hb => not_mem_of_beyond hb ha
  have hnone : rest.filter (fun a => decide (¬ Beyond key received a)) = [] :=
    List.filter_eq_nil_iff.mpr fun a ha hb =>
      decide_eq_true_eq.mp hb fun r hr => habove r hr a ha
  rw [← hrest, List.filter_append, hreceived, hnone, List.append_nil]

end Follows

end PJS.Feed
