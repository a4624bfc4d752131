import PJS.Domain.Frame
import PJS.Domain.PathText
import PJS.Lib.Puts

/-! What a receiver reads from frames: the patches in a payload, and the document that a skeleton
and the values set after it add up to. -/
namespace PJS

namespace FramePatch

def PatchOperation.ofName : String → Option PatchOperation
  | "set" => some .set
  | "append" => some .append
  | "merge" => some .merge
  | "delete" => some .delete
  | _ => none

/-- An entry of a patch frame's payload as a patch. -/
def ofPayload : JsonData → Option FramePatch
  | .object m =>
    match m.lookup "path", m.lookup "operation", m.lookup "value" with
    | some (.scalar (.string path)), some (.scalar (.string operation)), some value =>
      match JsonPath.fromStr path, PatchOperation.ofName operation with
      | .ok path, some operation => some ⟨path, operation, value⟩
      | _, _ => none
    | _, _, _ => none
  | _ => none

@[simp] theorem ofPayload_toPayload (patch : FramePatch) : ofPayload patch.toPayload = some patch := by
  obtain ⟨path, operation, value⟩ := patch
  have hname : PatchOperation.ofName operation.name = some operation := by
    cases operation <;> rfl
  have hlookup : ofPayload (toPayload ⟨path, operation, value⟩) =
      match JsonPath.fromStr path.toString, PatchOperation.ofName operation.name with
      | .ok path, some operation => some ⟨path, operation, value⟩
      | _, _ => none := rfl
  rw [hlookup, JsonPath.parse_text, hname]

end FramePatch

namespace Frame

/-- The patches of a patch frame; another frame has none. -/
def patches (frame : Frame) : List FramePatch :=
  match frame.frameType, frame.payload with
  | .patch, .object m =>
    match m.lookup "patches" with
    | some (.array items) => items.filterMap FramePatch.ofPayload
    | _ => []
  | _, _ => []

theorem patches_of_patch {streamId : StreamId} {sequence : ℕ} {priority : Priority}
    {patches : List FramePatch} {now : DateTime} {frame : Frame}
    (h : patch streamId sequence priority patches now = .ok frame) : frame.patches = patches := by
  unfold patch at h
  split_ifs at h
  cases h
  change (patches.map FramePatch.toPayload).filterMap FramePatch.ofPayload = patches
  rw [List.filterMap_map]
  conv_rhs => rw [← List.filterMap_some (l := patches)]
  exact List.filterMap_congr fun p _ => p.ofPayload_toPayload

/-- The values that the `Set` patches of the frames put, in order. -/
def puts (frames : List Frame) : List (List PathSegment × JsonData) :=
  ((frames.flatMap patches).filter fun p => p.operation = .set).map fun p =>
    (p.path.segments, p.value)

/-- The document a receiver builds: the skeleton of the first frame, with the `Set` patches of the
frames after it applied in order. A patch whose parent location is missing is passed over. -/
def rebuild : List Frame → Option JsonData
  | [] => none
  | skeleton :: rest => some (Doc.putAll skeleton.payload (puts rest))

end Frame

end PJS
