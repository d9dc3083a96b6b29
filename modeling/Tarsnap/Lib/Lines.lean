import Mathlib.Data.List.Basic

/-!
# Lines of bytes

A text is a sequence of lines, each with a separator behind it, and at the end perhaps a line
without one, if it is not empty. In the mode for zero-terminated lines the only separator is a
zero. In the other mode a line feed, a carriage return and a carriage return with a line feed behind
it are one separator each. An automaton that remembers the line so far and whether the byte before
was a carriage return finds the lines of every text, and no other lines.
-/

namespace Tarsnap.Lib

/-- The bytes that end a line. -/
def lineEnds (null : Bool) : List UInt8 := if null then [0] else [10, 13]

/-- The separators in front of the rest of a text. -/
def IsSeparator (null : Bool) (separator rest : List UInt8) : Prop :=
  if null then separator = [0]
  else separator = [10] ∨ separator = [13, 10] ∨ separator = [13] ∧ rest.head? ≠ some 10

/-- No byte of a line ends it. -/
def IsLine (null : Bool) (line : List UInt8) : Prop := ∀ byte ∈ line, byte ∉ lineEnds null

/-- The lines of a text. -/
inductive Lines (null : Bool) : List UInt8 → List (List UInt8) → Prop
  /-- An empty text has no line. -/
  | empty : Lines null [] []
  /-- A last line without a separator. -/
  | last {line : List UInt8} (nonempty : line ≠ []) (whole : IsLine null line) :
      Lines null line [line]
  /-- A line with its separator. -/
  | line {line separator rest : List UInt8} {later : List (List UInt8)}
      (whole : IsLine null line) (ends : IsSeparator null separator rest)
      (more : Lines null rest later) : Lines null (line ++ separator ++ rest) (line :: later)

/-- The lines that an automaton finds: it remembers whether the byte before was a carriage return
that ended a line, and the line so far. -/
def splitLines (null : Bool) : Bool → List UInt8 → List UInt8 → List (List UInt8)
  | _, line, [] => if line = [] then [] else [line]
  | lastcharwasr, line, byte :: rest =>
    if lastcharwasr ∧ byte = 10 then splitLines null false line rest
    else if byte ∈ lineEnds null then line :: splitLines null (byte = 13) [] rest
    else splitLines null false (line ++ [byte]) rest

variable {null : Bool}

/-- Bytes that end no line extend it. -/
theorem splitLines_line (line body rest : List UInt8) (whole : IsLine null body) :
    splitLines null false line (body ++ rest) = splitLines null false (line ++ body) rest := by
  induction body generalizing line with
  | nil => rw [List.nil_append, List.append_nil]
  | cons byte body ih =>
    have inside : byte ∉ lineEnds null := whole byte List.mem_cons_self
    have remaining : IsLine null body := fun other member =>
      whole other (List.mem_cons_of_mem byte member)
    rw [List.cons_append, splitLines, if_neg (fun pair => nomatch pair.1), if_neg inside,
      ih _ remaining, List.append_assoc, List.singleton_append]

/-- The memory of a carriage return matters only in front of a line feed. -/
theorem splitLines_after_return (line : List UInt8) {rest : List UInt8}
    (other : rest.head? ≠ some 10) :
    splitLines null true line rest = splitLines null false line rest := by
  cases rest with
  | nil => rfl
  | cons byte rest =>
    have different : byte ≠ 10 := fun same => other (congrArg some same)
    have skipped : ∀ lastcharwasr : Bool, ¬(lastcharwasr = true ∧ byte = 10) :=
      fun _ pair => different pair.2
    rw [splitLines, splitLines, if_neg (skipped true), if_neg (skipped false)]

/-- A separator ends a line. -/
theorem splitLines_separator (line : List UInt8) {separator rest : List UInt8}
    (ends : IsSeparator null separator rest) :
    splitLines null false line (separator ++ rest) = line :: splitLines null false [] rest := by
  cases null with
  | true =>
    obtain rfl : separator = [0] := ends
    rfl
  | false =>
    rcases ends with rfl | rfl | ⟨rfl, other⟩
    · rfl
    · rfl
    · show line :: splitLines false true [] rest = _
      rw [splitLines_after_return [] other]

/-- The automaton finds every sequence of lines. -/
theorem Lines.eq_splitLines {text : List UInt8} {lines : List (List UInt8)}
    (given : Lines null text lines) : lines = splitLines null false [] text := by
  induction given with
  | empty => rfl
  | @last line nonempty whole =>
    have found := splitLines_line [] line [] whole
    rw [List.append_nil, List.nil_append] at found
    rw [found, splitLines, if_neg nonempty]
  | @line line separator rest later whole ends more ih =>
    rw [List.append_assoc, splitLines_line [] line _ whole, List.nil_append,
      splitLines_separator line ends, ← ih]

/-- What the automaton finds are the lines of the text. -/
theorem splitLines_lines (line rest : List UInt8) (whole : IsLine null line) :
    Lines null (line ++ rest) (splitLines null false line rest) := by
  induction size : rest.length using Nat.strongRecOn generalizing line rest with
  | ind length ih =>
    cases rest with
    | nil =>
      rw [List.append_nil, splitLines]
      by_cases empty : line = []
      · rw [if_pos empty, empty]
        exact .empty
      · rw [if_neg empty]
        exact .last empty whole
    | cons byte rest =>
      rw [List.length_cons] at size
      rw [splitLines, if_neg (fun pair => nomatch pair.1)]
      by_cases ending : byte ∈ lineEnds null
      · rw [if_pos ending]
        have whole' : IsLine null [] := fun _ member => nomatch member
        have later := ih rest.length (by omega) [] rest whole' rfl
        rw [List.nil_append] at later
        have plain : IsSeparator null [byte] rest → byte ≠ 13 ∨ rest.head? ≠ some 10 →
            Lines null (line ++ byte :: rest) (line :: splitLines null (byte = 13) [] rest) := by
          intro ends single
          have same : splitLines null (byte = 13) [] rest = splitLines null false [] rest := by
            by_cases carriage : byte = 13
            · rw [decide_eq_true carriage]
              exact splitLines_after_return [] (single.resolve_left (not_not_intro carriage))
            · rw [decide_eq_false carriage]
          have lines := Lines.line whole ends later
          rwa [List.append_assoc, List.singleton_append, ← same] at lines
        cases null with
        | true =>
          obtain rfl : byte = 0 := List.mem_singleton.mp ending
          exact plain rfl (.inl (by decide))
        | false =>
          rcases List.mem_cons.mp ending with rfl | ending
          · exact plain (.inl rfl) (.inl (by decide))
          obtain rfl : byte = 13 := List.mem_singleton.mp ending
          by_cases pair : rest.head? = some 10
          · obtain ⟨more, rfl⟩ := List.head?_eq_some_iff.mp pair
            rw [List.length_cons] at size
            have after := ih more.length (by omega) [] more whole' rfl
            rw [List.nil_append] at after
            have ends : IsSeparator false [13, 10] more := .inr (.inl rfl)
            have lines := Lines.line whole ends after
            rwa [List.append_assoc] at lines
          · exact plain (.inr (.inr ⟨rfl, pair⟩)) (.inr pair)
      · rw [if_neg ending]
        have longer : IsLine null (line ++ [byte]) := by
          intro other member
          rcases List.mem_append.mp member with front | back
          · exact whole other front
          · rw [List.mem_singleton.mp back]
            exact ending
        have found := ih rest.length (by omega) (line ++ [byte]) rest longer rfl
        rwa [List.append_assoc, List.singleton_append] at found

end Tarsnap.Lib
