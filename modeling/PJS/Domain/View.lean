import PJS.Lib.Reveal
import PJS.Domain.FrameReading
import PJS.Domain.StreamPatches

/-! What a receiver shows that starts from the skeleton of a document and sets the values of the
patches that reach it: as long as these are leaves of the document, a part of it. -/
namespace PJS

/-- The values that the patches of frames set. -/
def Frame.settings (frames : List Frame) : List (Doc.Patch String DataScalar) :=
  (frames.flatMap Frame.patches).map FramePatch.setting

theorem Frame.settings_append (frames frames' : List Frame) :
    Frame.settings (frames ++ frames') = Frame.settings frames ++ Frame.settings frames' := by
  simp [Frame.settings]

namespace Stream

/-- What may stand for a value that has yet to arrive: its placeholder, or null for a root. -/
def Stands (blank value : DataScalar) : Prop := blank = .null ∨ blank = placeholder value

/-- The skeleton, and from the first patch on the values that arrived. -/
def view (data : JsonData) (settings : List (Doc.Patch String DataScalar)) : JsonData :=
  if settings = [] then generateSkeleton data
  else data.reveal placeholder (Doc.arrived settings)

variable {d : DataDocument} {ps qs : List (Doc.Patch String DataScalar)}

/-- Below the root the skeleton blanks everything out. -/
theorem generateSkeleton_eq_blankOut (d : DataDocument) (h : ∀ s, d.value ≠ .scalar s) :
    generateSkeleton d.value = d.value.blankOut placeholder := by
  obtain ⟨value, distinct⟩ := d
  cases value with
  | scalar s => exact absurd rfl (h s)
  | array xs => rfl
  | object m => exact generateSkeleton_object distinct

theorem view_eq_reveal (h : ps ≠ [] ∨ ∀ s, d.value ≠ .scalar s) :
    view d.value ps = d.value.reveal placeholder (Doc.arrived ps) := by
  unfold view
  split_ifs with hps
  · have hd := h.resolve_left (not_not.mpr hps)
    rw [generateSkeleton_eq_blankOut d hd, ← Doc.reveal_none, hps]
    rfl
  · rfl

/-- Leaves in any order, any number of them lost or repeated: what is shown is the view of those
that arrived. -/
theorem runAll_eq_view (hps : ∀ p ∈ ps, p ∈ d.value.leaves ValidKey) :
    Doc.runAll ps (generateSkeleton d.value) = some (view d.value ps) := by
  by_cases hd : ∀ s, d.value ≠ .scalar s
  · rw [generateSkeleton_eq_blankOut d hd, view_eq_reveal (Or.inr hd),
      Doc.runAll_blankOut d.distinct hps]
  · push Not at hd
    obtain ⟨s, hs⟩ := hd
    by_cases hnil : ps = []
    · rw [hnil]
      rfl
    · -- the first patch sets the root, so it does not matter what stood there
      rw [view_eq_reveal (Or.inl hnil), hs]
      rw [hs] at hps
      have hall : ∀ p ∈ ps, p = ⟨[], .set (.scalar s)⟩ := fun p hp => by
        simpa [Doc.leaves] using hps p hp
      rw [Doc.runAll_set hnil hall, Doc.reveal]
      obtain ⟨p, hp⟩ := List.exists_mem_of_ne_nil ps hnil
      have hshown : Doc.arrived ps [] = true := by
        rw [Doc.arrived, decide_eq_true_eq]
        exact List.mem_map.mpr ⟨p, hp, by rw [hall p hp]⟩
      rw [if_pos hshown]

theorem stands_placeholder (s : DataScalar) : Stands (placeholder s) s := Or.inr rfl

/-- No value is shown that the document does not have there. -/
theorem view_below (d : DataDocument) (ps : List (Doc.Patch String DataScalar)) :
    (view d.value ps).Below Stands d.value := by
  by_cases hps : ps ≠ [] ∨ ∀ s, d.value ≠ .scalar s
  · rw [view_eq_reveal hps]
    exact Doc.reveal_below stands_placeholder _ _
  · push Not at hps
    obtain ⟨rfl, s, hs⟩ := hps
    rw [hs]
    exact .blank (Or.inl rfl)

/-- What is shown stays shown. -/
theorem view_mono (d : DataDocument) (h : ps ⊆ qs) :
    (view d.value ps).Below Stands (view d.value qs) := by
  by_cases hps : ps ≠ [] ∨ ∀ s, d.value ≠ .scalar s
  · have hqs : qs ≠ [] ∨ ∀ s, d.value ≠ .scalar s := by
      refine hps.imp_left fun hne hnil => hne ?_
      rw [hnil] at h
      exact List.subset_nil.mp h
    rw [view_eq_reveal hps, view_eq_reveal hqs]
    refine Doc.reveal_mono stands_placeholder (fun path hpath => ?_) _
    rw [Doc.arrived, decide_eq_true_eq] at hpath ⊢
    exact List.map_subset _ h hpath
  · push Not at hps
    obtain ⟨rfl, s, hs⟩ := hps
    rw [hs]
    change Doc.Below Stands (.scalar .null) _
    unfold view
    split_ifs
    · exact .scalar _
    · exact .blank (Or.inl rfl)

/-- The document is complete exactly when every leaf has arrived whose value is not blank. -/
theorem view_eq_self_iff (hd : ∀ s, d.value ≠ .scalar s)
    (hps : ∀ p ∈ ps, p ∈ d.value.leaves ValidKey) :
    view d.value ps = d.value ↔
      ∀ q ∈ d.value.leaves (fun _ => True), q ∈ ps ∨ q.SetsBlank IsZero := by
  rw [view_eq_reveal (Or.inr hd), Doc.reveal_eq_self_iff placeholder_eq_self_iff]
  refine forall₂_congr fun q hq => or_congr_left ?_
  exact Doc.arrived_iff_mem d.distinct hps hq

end Stream

end PJS
