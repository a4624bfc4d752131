import PJS.Lib.Lines

/-! Event streams as `EventSource` reads them: lines end in a line feed, a carriage return or both,
the fields of an event come line by line, and a blank line ends it. -/
namespace PJS.EventStream

/-- An event as it is dispatched. -/
structure Event where
  type : List Char
  data : List Char
deriving DecidableEq

/-- What the reader keeps between two characters. -/
structure Reader where
  line : List Char
  afterCR : Bool
  type : List Char
  data : List Char
deriving DecidableEq

def Reader.start : Reader := ⟨[], false, [], []⟩

/-- The name and the value of a field; one space after the colon is not part of the value. -/
def field (line : List Char) : List Char × List Char :=
  (line.takeWhile (· ≠ ':'), match line.dropWhile (· ≠ ':') with
    | ':' :: ' ' :: value => value
    | _ :: value => value
    | [] => [])

namespace Reader

/-- An event without data is not dispatched. Its data ends in a line feed, which is dropped. -/
def dispatch (r : Reader) : Reader × List Event :=
  if r.data = [] then ({ r with type := [] }, [])
  else ({ r with type := [], data := [] },
    [⟨if r.type = [] then "message".toList else r.type, r.data.dropLast⟩])

/-- A line that is not blank. The fields `id` and `retry` say how to reconnect. -/
def process (r : Reader) (line : List Char) : Reader :=
  if line.head? = some ':' then r
  else if (field line).1 = "event".toList then { r with type := (field line).2 }
  else if (field line).1 = "data".toList then { r with data := r.data ++ (field line).2 ++ ['\n'] }
  else r

def endLine (r : Reader) : Reader × List Event :=
  if r.line = [] then r.dispatch else ({ r.process r.line with line := [] }, [])

def step (r : Reader) (c : Char) : Reader × List Event :=
  if c = '\n' ∧ r.afterCR then ({ r with afterCR := false }, [])
  else if c = '\n' ∨ c = '\r' then endLine { r with afterCR := c = '\r' }
  else ({ r with line := r.line ++ [c], afterCR := false }, [])

def run (r : Reader) : List Char → Reader × List Event
  | [] => (r, [])
  | c :: text => ((run (r.step c).1 text).1, (r.step c).2 ++ (run (r.step c).1 text).2)

theorem run_append (r : Reader) (text rest : List Char) :
    r.run (text ++ rest) =
      (((r.run text).1.run rest).1, (r.run text).2 ++ ((r.run text).1.run rest).2) := by
  induction text generalizing r with
  | nil => rfl
  | cons c text ih => rw [List.cons_append, run, ih, run, List.append_assoc]

theorem run_prefix (r : Reader) {text whole : List Char} (h : text <+: whole) :
    (r.run text).2 <+: (r.run whole).2 := by
  obtain ⟨rest, rfl⟩ := h
  rw [run_append]
  exact List.prefix_append _ _

/-- A line that goes on. -/
theorem run_line {r : Reader} (hr : r.afterCR = false) {line : List Char}
    (h : '\n' ∉ line ∧ '\r' ∉ line) : r.run line = ({ r with line := r.line ++ line }, []) := by
  induction line generalizing r with
  | nil => rw [run, List.append_nil]
  | cons c line ih =>
    have hfeed : c ≠ '\n' := fun heq => h.1 (heq ▸ List.mem_cons_self)
    have hreturn : c ≠ '\r' := fun heq => h.2 (heq ▸ List.mem_cons_self)
    have hstep : r.step c = ({ r with line := r.line ++ [c], afterCR := false }, []) := by
      rw [step, if_neg fun hc => hfeed hc.1, if_neg fun hc => hc.elim hfeed hreturn]
    rw [run, hstep, ih rfl ⟨fun hm => h.1 (List.mem_cons_of_mem c hm),
      fun hm => h.2 (List.mem_cons_of_mem c hm)⟩, hr]
    simp

example : (start.run ": note\r\nevent: frame\r\ndata: a\r\ndata:b\r\n\r\n".toList).2 =
    [⟨"frame".toList, "a\nb".toList⟩] := by
  decide +kernel

/-- A line feed ends the line. -/
theorem step_feed {r : Reader} (hr : r.afterCR = false) : r.step '\n' = r.endLine := by
  rw [step, if_neg (by simp [hr]), if_pos (Or.inl rfl)]
  obtain ⟨line, afterCR, type, data⟩ := r
  cases hr
  rfl

end Reader

/-- A line of data. -/
def dataLine (data : List Char) : List Char := ['d', 'a', 't', 'a', ':', ' '] ++ data ++ ['\n']

/-- A line of data alone dispatches nothing. -/
theorem run_dataLine {data : List Char} (h : '\n' ∉ data ∧ '\r' ∉ data) :
    Reader.start.run (dataLine data) = (⟨[], false, [], data ++ ['\n']⟩, []) := by
  have hline : '\n' ∉ ['d', 'a', 't', 'a', ':', ' '] ++ data ∧
      '\r' ∉ ['d', 'a', 't', 'a', ':', ' '] ++ data := by
    simpa using h
  have hend : Reader.step ⟨['d', 'a', 't', 'a', ':', ' '] ++ data, false, [], []⟩ '\n' =
      (⟨[], false, [], data ++ ['\n']⟩, []) := by
    rw [Reader.step_feed rfl]
    rfl
  have hrun := Reader.run_line (r := Reader.start) rfl hline
  rw [dataLine, Reader.run_append, hrun]
  exact congrArg (fun p : Reader × List Event => ((p.1, p.2 ++ []) : Reader × List Event)) hend

/-- The blank line after it does. -/
theorem run_block {data : List Char} (h : '\n' ∉ data ∧ '\r' ∉ data) (more : List Char) :
    Reader.start.run (dataLine data ++ '\n' :: more) =
      ((Reader.start.run more).1, ⟨"message".toList, data⟩ :: (Reader.start.run more).2) := by
  have hblank : Reader.step ⟨[], false, [], data ++ ['\n']⟩ '\n' =
      (Reader.start, [⟨"message".toList, data⟩]) := by
    rw [Reader.step_feed rfl, Reader.endLine, if_pos rfl, Reader.dispatch, if_neg (by simp),
      List.dropLast_concat]
    rfl
  rw [Reader.run_append, run_dataLine h, Reader.run, hblank]
  rfl

/-- Of a stream of messages that is cut off, those are dispatched that came with their ends. -/
theorem run_of_prefix {messages : List (List Char)}
    (h : ∀ data ∈ messages, '\n' ∉ data ∧ '\r' ∉ data) {text : List Char}
    (htext : text <+: (messages.map dataLine).flatMap (· ++ ['\n'])) :
    (Reader.start.run text).2 =
      (messages.take (Lines.whole 1 (messages.map dataLine) text.length)).map
        (⟨"message".toList, ·⟩) := by
  induction messages generalizing text with
  | nil =>
    obtain rfl := List.prefix_nil.mp htext
    rfl
  | cons data rest ih =>
    have hdata := h data (by simp)
    simp only [List.map_cons, List.flatMap_cons, List.append_assoc, List.singleton_append]
      at htext ⊢
    rcases Lines.prefix_line htext with hpart | ⟨more, rfl, hmore⟩
    · have hnone := Reader.start.run_prefix hpart
      rw [run_dataLine hdata] at hnone
      have hlength := hpart.length_le
      rw [List.prefix_nil.mp hnone, Lines.whole, if_pos (by omega)]
      rfl
    · have hcount : (dataLine data ++ '\n' :: more).length =
          (dataLine data).length + 1 + more.length := by
        rw [List.length_append, List.length_cons]
        omega
      rw [run_block hdata, ih (fun d hd => h d (by simp [hd])) hmore, Lines.whole, hcount,
        if_neg (by omega), Nat.add_sub_cancel_left]
      rfl

end PJS.EventStream
