import Tarsnap.Tar.ProcessLines

/-!
# The lines that are processed

Between the steps of the loop the buffer holds the line so far and what was read behind it, in
front of cells that do not matter. A step of the scan looks at one byte of the text, as the
automaton that splits lines does. A read, a move and an enlargement change neither what the buffer
holds nor what is still to come. So the callback gets the lines of the file, however the file is
read.
-/

namespace Tarsnap.Tar.ProcessLines

open Tarsnap.Lib

section Buffer

/-- The buffer holds the line so far and what was read behind it. -/
structure Layout (r : Reader) (line pending : List UInt8) : Prop where
  /-- The cells from the start of the line to the end of what was read. -/
  cells : ∃ front back : Cells,
    r.buff = front ++ ((line ++ pending).map some ++ back) ∧ front.length = r.lineStart
  /-- The line so far ends where the scan looks. -/
  lineEnd : r.lineEnd = r.lineStart + line.length
  /-- What was read ends at the end of the data. -/
  buffEnd : r.buffEnd = r.lineEnd + pending.length

/-- What was read is in the buffer. -/
theorem Layout.fits {r : Reader} {line pending : List UInt8} (layout : Layout r line pending) :
    r.buffEnd ≤ r.buff.length := by
  obtain ⟨front, back, buffer, start⟩ := layout.cells
  have lineEnd := layout.lineEnd
  have buffEnd := layout.buffEnd
  rw [buffer, List.length_append, List.length_append, List.length_map, List.length_append]
  omega

/-- The cells in front of the place where the scan looks, and those behind it. -/
theorem Layout.split {r : Reader} {line pending : List UInt8} (layout : Layout r line pending) :
    ∃ front back : Cells, r.buff = (front ++ line.map some) ++ (pending.map some ++ back) ∧
      front.length = r.lineStart ∧ (front ++ line.map some).length = r.lineEnd := by
  obtain ⟨front, back, buffer, start⟩ := layout.cells
  refine ⟨front, back, ?_, start, ?_⟩
  · rw [buffer, List.map_append, List.append_assoc, List.append_assoc]
  · rw [List.length_append, List.length_map, start, layout.lineEnd]

end Buffer

section Scan

variable {σ : Type} {null : Bool} {process : σ → List UInt8 → Int × σ}

/-- The text has no zeros, unless these end the lines. -/
def Clean (null : Bool) (text : List UInt8) : Prop := null = false → 0 ∉ text

/-- A loop passed lines to the callback. -/
def Delivers (process : σ → List UInt8 → Int × σ) (delivered : List (List UInt8))
    (before after : Int × σ) : Prop := after = delivered.foldl (deliver process) before

/-- What holds while the buffer is scanned: its layout, the state of the automaton, and no zero in
the line. -/
structure Scanning (r : Reader) (line pending : List UInt8) : Prop extends
    Layout r line pending where
  /-- A line that starts behind a carriage return is empty. -/
  fresh : r.lastcharwasr = true → line = []
  /-- The line so far has no zero. -/
  clean : 0 ∉ line

/-- A part of the text was scanned: the lines in it were passed to the callback, and the automaton
went on with the rest. -/
structure Passes (null : Bool) (process : σ → List UInt8 → Int × σ) (taken : List UInt8)
    (before : Reader × σ) (line : List UInt8) (after : Reader × σ) (line' : List UInt8) : Prop where
  /-- The buffer keeps its length. -/
  buffer : after.1.buff.length = before.1.buff.length
  /-- The line grows by what was taken at most. -/
  grows : line'.length ≤ line.length + taken.length
  /-- The lines in the part were delivered. -/
  lines : ∃ delivered, Delivers process delivered (before.1.ret, before.2) (after.1.ret, after.2) ∧
    ∀ more, splitLines null before.1.lastcharwasr line (taken ++ more) =
      delivered ++ splitLines null after.1.lastcharwasr line' more

/-- One part after the other. -/
theorem Passes.trans {first second : List UInt8} {before middle after : Reader × σ}
    {line line' line'' : List UInt8} (left : Passes null process first before line middle line')
    (right : Passes null process second middle line' after line'') :
    Passes null process (first ++ second) before line after line'' where
  buffer := right.buffer.trans left.buffer
  grows := by
    have one := left.grows
    have two := right.grows
    rw [List.length_append]
    omega
  lines := by
    obtain ⟨delivered, delivers, lines⟩ := left.lines
    obtain ⟨delivered', delivers', lines'⟩ := right.lines
    refine ⟨delivered ++ delivered', ?_, ?_⟩
    · rw [Delivers, List.foldl_append, ← delivers]
      exact delivers'
    · intro more
      rw [List.append_assoc, lines, lines', List.append_assoc]

/-- A step of the scan is a step of the automaton. -/
theorem scanByte_spec {r : Reader} {line rest : List UInt8} {byte : UInt8}
    (scanning : Scanning r line (byte :: rest)) (clean : Clean null (byte :: rest)) (bsdtar : σ) :
    ∃ (after : Reader × σ) (line' : List UInt8),
      scanByte null process r bsdtar = .ok after ∧ Scanning after.1 line' rest ∧
      after.1.buffEnd = r.buffEnd ∧ Passes null process [byte] (r, bsdtar) line after line' := by
  obtain ⟨front, back, buffer, start, looked⟩ := scanning.split
  have lineEnd := scanning.lineEnd
  have buffEnd := scanning.buffEnd
  rw [List.length_cons] at buffEnd
  rw [List.map_cons, List.cons_append] at buffer
  have loaded : load r.buff r.lineEnd = .ok byte := by
    rw [buffer]
    exact load_at looked
  rw [scanByte, loaded, ok_bind]
  by_cases pair : r.lastcharwasr ∧ byte = 10
  · rw [if_pos pair]
    obtain rfl := scanning.fresh pair.1
    rw [List.map_nil, List.append_nil] at buffer
    refine ⟨(_, bsdtar), [], rfl, ⟨⟨⟨front ++ [some byte], back, ?_, ?_⟩, ?_, ?_⟩, ?_, ?_⟩, rfl,
      rfl, ?_, [], rfl, fun more => ?_⟩
    · rw [buffer, List.append_assoc, List.singleton_append, List.nil_append]
    · rw [List.length_append, List.length_singleton, start]
    · simp only [List.length_nil] at lineEnd ⊢
      omega
    · simp only
      omega
    · intro absurdity
      cases absurdity
    · exact List.not_mem_nil
    · exact Nat.zero_le _
    · rw [List.cons_append, splitLines, if_pos pair]
      rfl
  · rw [if_neg pair]
    by_cases ending : byte ∈ lineEnds null
    · rw [if_pos ending]
      have stored : store r.buff r.lineEnd 0 =
          .ok ((front ++ line.map some) ++ some 0 :: (rest.map some ++ back)) := by
        rw [buffer]
        exact store_at looked
      have dropped : ((front ++ line.map some) ++ some 0 :: (rest.map some ++ back)).drop
          r.lineStart = line.map some ++ some 0 :: (rest.map some ++ back) := by
        rw [List.append_assoc, ← start, List.drop_left]
      rw [stored, ok_bind, dropped, cString_line scanning.clean, ok_bind]
      refine ⟨(_, _), [], rfl, ⟨⟨⟨front ++ line.map some ++ [some 0], back, ?_, ?_⟩, ?_, ?_⟩,
        fun _ => rfl, List.not_mem_nil⟩, rfl, ?_, ?_, [line], rfl, fun more => ?_⟩
      · simp only [List.nil_append, List.append_assoc, List.singleton_append]
      · rw [List.length_append, looked, List.length_singleton]
      · rfl
      · simp only
        omega
      · rw [buffer]
        simp only [List.length_append, List.length_cons]
      · exact Nat.zero_le _
      · rw [List.cons_append, splitLines, if_neg pair, if_pos ending]
        rfl
    · rw [if_neg ending]
      refine ⟨(_, bsdtar), line ++ [byte], rfl, ⟨⟨⟨front, back, ?_, start⟩, ?_, ?_⟩, ?_, ?_⟩, rfl,
        rfl, ?_, [], rfl, fun more => ?_⟩
      · rw [buffer]
        simp only [List.map_append, List.map_cons, List.append_assoc, List.cons_append,
          List.nil_append]
      · simp only [List.length_append, List.length_singleton]
        omega
      · simp only
        omega
      · intro absurdity
        cases absurdity
      · intro zero
        rcases List.mem_append.mp zero with inLine | last
        · exact scanning.clean inLine
        · have same : byte = 0 := (List.mem_singleton.mp last).symm
          cases null with
          | false => exact clean rfl (same ▸ List.mem_cons_self)
          | true => exact ending (List.mem_singleton.mpr same)
      · exact Nat.le_of_eq List.length_append
      · rw [List.cons_append, splitLines, if_neg pair, if_neg ending]
        rfl

/-- The scan passes everything that was read. -/
theorem scan_spec {fuel : Nat} {r : Reader} {line pending : List UInt8}
    (scanning : Scanning r line pending) (clean : Clean null pending) (bsdtar : σ)
    (enough : pending.length < fuel) :
    ∃ (after : Reader × σ) (line' : List UInt8),
      scan null process fuel r bsdtar = .ok after ∧ Scanning after.1 line' [] ∧
      after.1.buffEnd = r.buffEnd ∧ Passes null process pending (r, bsdtar) line after line' := by
  induction pending generalizing fuel r line bsdtar with
  | nil =>
    obtain ⟨more, rfl⟩ := Nat.exists_eq_succ_of_ne_zero (Nat.ne_of_gt enough)
    have done : ¬r.lineEnd < r.buffEnd := by
      have buffEnd := scanning.buffEnd
      rw [List.length_nil] at buffEnd
      omega
    refine ⟨(r, bsdtar), line, ?_, scanning, rfl, rfl, Nat.le_refl _, [], rfl, fun more => rfl⟩
    rw [scan, if_neg done]
  | cons byte rest ih =>
    obtain ⟨fuel, rfl⟩ := Nat.exists_eq_succ_of_ne_zero
      (Nat.ne_of_gt (Nat.lt_of_le_of_lt (Nat.zero_le _) enough))
    rw [List.length_cons] at enough
    have more : r.lineEnd < r.buffEnd := by
      have buffEnd := scanning.buffEnd
      rw [List.length_cons] at buffEnd
      omega
    obtain ⟨middle, line', first, scanning', buffEnd, passes⟩ := scanByte_spec scanning clean bsdtar
    have clean' : Clean null rest := fun mode member =>
      clean mode (List.mem_cons_of_mem byte member)
    obtain ⟨after, line'', later, scanning'', buffEnd', passes'⟩ :=
      ih scanning' clean' middle.2 (show rest.length < fuel by omega)
    refine ⟨after, line'', ?_, scanning'', buffEnd'.trans buffEnd, passes.trans passes'⟩
    rw [scan, if_pos more, first, ok_bind]
    exact later

/-- What a read gives is stored behind what is there. -/
theorem storeBytes_spec {r : Reader} {line bytes : List UInt8} (scanning : Scanning r line [])
    (room : r.buffEnd + bytes.length ≤ r.buff.length) :
    ∃ buff, storeBytes r.buff r.buffEnd bytes = .ok buff ∧ buff.length = r.buff.length ∧
      Scanning { r with buff, buffEnd := r.buffEnd + bytes.length } line bytes := by
  obtain ⟨front, back, buffer, start, looked⟩ := scanning.split
  have lineEnd := scanning.lineEnd
  have buffEnd := scanning.buffEnd
  rw [List.length_nil, Nat.add_zero] at buffEnd
  rw [List.map_nil, List.nil_append] at buffer
  have taken : r.buff.take r.buffEnd = front ++ line.map some := by
    rw [buffer, buffEnd, ← looked, List.take_left]
  refine ⟨_, by rw [storeBytes, if_pos room], ?_, ⟨⟨⟨front,
    r.buff.drop (r.buffEnd + bytes.length), ?_, start⟩, lineEnd, ?_⟩, scanning.fresh,
    scanning.clean⟩⟩
  · rw [List.length_append, List.length_append, List.length_take, List.length_map,
      List.length_drop]
    omega
  · rw [taken]
    simp only [List.map_append, List.append_assoc]
  · simp only
    omega

/-- The line so far is moved to the beginning of the buffer. -/
theorem moveCells_spec {r : Reader} {line : List UInt8} (scanning : Scanning r line []) :
    ∃ buff, moveCells r.buff r.lineStart (r.buffEnd - r.lineStart) = .ok buff ∧
      buff.length = r.buff.length ∧
      Scanning { r with
        buff, lineStart := 0, lineEnd := r.lineEnd - r.lineStart
        buffEnd := r.buffEnd - r.lineStart } line [] := by
  obtain ⟨front, back, buffer, start, looked⟩ := scanning.split
  have fits := scanning.fits
  have lineEnd := scanning.lineEnd
  have buffEnd := scanning.buffEnd
  rw [List.length_nil, Nat.add_zero] at buffEnd
  rw [List.map_nil, List.nil_append, List.append_assoc] at buffer
  have room : r.lineStart + (r.buffEnd - r.lineStart) ≤ r.buff.length := by omega
  have count : r.buffEnd - r.lineStart = (line.map some).length := by
    rw [List.length_map]
    omega
  have kept : (r.buff.drop r.lineStart).take (r.buffEnd - r.lineStart) = line.map some := by
    rw [count, buffer, ← start, List.drop_left, List.take_left]
  refine ⟨_, by rw [moveCells, if_pos room], ?_, ⟨⟨⟨[], r.buff.drop (r.buffEnd - r.lineStart), ?_,
    rfl⟩, ?_, ?_⟩, scanning.fresh, scanning.clean⟩⟩
  · rw [List.length_append, List.length_take, List.length_drop, List.length_drop]
    omega
  · rw [kept, List.append_nil, List.nil_append]
  · simp only
    omega
  · simp only [List.length_nil]
    omega

/-- A larger buffer holds the same line. -/
theorem Scanning.enlarge {r : Reader} {line : List UInt8} (scanning : Scanning r line [])
    (more : Cells) : Scanning { r with buff := r.buff ++ more } line [] := by
  obtain ⟨front, back, buffer, start⟩ := scanning.cells
  refine ⟨⟨⟨front, back ++ more, ?_, start⟩, scanning.lineEnd, scanning.buffEnd⟩, scanning.fresh,
    scanning.clean⟩
  rw [buffer, List.append_assoc, List.append_assoc]

/-- The final line is delivered unless it is empty. -/
theorem finalLine_spec {r : Reader} {line : List UInt8} (scanning : Scanning r line [])
    (room : r.buffEnd < r.buff.length) (bsdtar : σ) :
    ∃ ret bsdtar', finalLine process r bsdtar = .ok (.returned ret bsdtar') ∧
      Delivers process (splitLines null r.lastcharwasr line []) (r.ret, bsdtar) (ret, bsdtar') := by
  obtain ⟨front, back, buffer, start, looked⟩ := scanning.split
  have lineEnd := scanning.lineEnd
  have buffEnd := scanning.buffEnd
  rw [List.length_nil, Nat.add_zero] at buffEnd
  rw [List.map_nil, List.nil_append] at buffer
  rw [finalLine, splitLines]
  by_cases empty : line = []
  · subst empty
    rw [List.length_nil] at lineEnd
    rw [if_neg (by omega), if_pos rfl]
    exact ⟨r.ret, bsdtar, rfl, rfl⟩
  · have long := List.length_pos_iff.mpr empty
    have behind : back ≠ [] := by
      rintro rfl
      rw [List.append_nil] at buffer
      rw [buffer] at room
      omega
    obtain ⟨cell, back, rfl⟩ := List.exists_cons_of_ne_nil behind
    have stored : store r.buff r.lineEnd 0 = .ok ((front ++ line.map some) ++ some 0 :: back) := by
      rw [buffer]
      exact store_at looked
    have dropped : ((front ++ line.map some) ++ some 0 :: back).drop r.lineStart =
        line.map some ++ some 0 :: back := by
      rw [List.append_assoc, ← start, List.drop_left]
    rw [if_pos (by omega), if_neg empty, stored, ok_bind, dropped, cString_line scanning.clean,
      ok_bind]
    exact ⟨_, _, rfl, rfl⟩

end Scan

section Loop

variable {σ : Type} {null : Bool} {process : σ → List UInt8 → Int × σ} {env : Environment}

/-- How processing may end when these lines are still to come: it returns after all of them, or
the program ends after some of them. -/
def Ends (process : σ → List UInt8 → Int × σ) (lines : List (List UInt8)) (before : Int × σ) :
    Ending σ → Prop
  | .returned ret bsdtar => Delivers process lines before (ret, bsdtar)
  | .exit _ bsdtar => ∃ delivered ret, delivered <+: lines ∧
      Delivers process delivered before (ret, bsdtar)

/-- What ends after some lines were delivered ends after these and the lines before. -/
theorem Ends.after {delivered later : List (List UInt8)} {before middle : Int × σ}
    {ending : Ending σ} (ends : Ends process later middle ending)
    (delivers : Delivers process delivered before middle) :
    Ends process (delivered ++ later) before ending := by
  cases ending with
  | returned ret bsdtar =>
    rw [Ends, Delivers, List.foldl_append, ← delivers]
    exact ends
  | exit reason bsdtar =>
    obtain ⟨part, ret, initial, delivers'⟩ := ends
    refine ⟨delivered ++ part, ret, List.prefix_append_right_inj delivered |>.mpr initial, ?_⟩
    rw [Delivers, List.foldl_append, ← delivers]
    exact delivers'

/-- The memory for a text of this length. -/
structure Granted (env : Environment) (limit : Nat) : Prop where
  /-- The text is shorter than half of the address space. -/
  small : limit < 2 ^ 63
  /-- A buffer can be enlarged to twice this length. -/
  realloc : ∀ length ≤ 2 * limit, env.realloc length = true

/-- The loop returns, having delivered the lines of what is to come, or ends the program. It
returns when every read gets what it asks for and there is memory. -/
theorem readLoop_spec {fuel : Nat} {file : File} {r : Reader} {line : List UInt8}
    (scanning : Scanning r line []) (clean : Clean null file.rest)
    (room : r.buffEnd < r.buff.length) (enough : file.plan.length + file.rest.length < fuel)
    (bsdtar : σ) :
    ∃ ending, readLoop null process env fuel file r bsdtar = .ok ending ∧
      Ends process (splitLines null r.lastcharwasr line file.rest) (r.ret, bsdtar) ending ∧
      (file.plan = [] → ∀ limit, line.length + file.rest.length ≤ limit → Granted env limit →
        ∃ ret bsdtar', ending = .returned ret bsdtar') := by
  induction fuel generalizing file r line bsdtar with
  | zero => exact absurd enough (Nat.not_lt_zero _)
  | succ fuel ih =>
    rw [readLoop]
    have wanted : 0 < r.buff.length - r.buffEnd := by omega
    have nearer := fread_nearer file wanted
    have full := @fread_full file (r.buff.length - r.buffEnd)
    obtain ⟨whole, bound, ended⟩ := fread_spec file (r.buff.length - r.buffEnd)
    generalize fread file (r.buff.length - r.buffEnd) = result at nearer full whole bound ended ⊢
    obtain ⟨read, file'⟩ := result
    simp only at nearer full whole bound ended ⊢
    obtain ⟨buff, stored, length, scanning'⟩ := storeBytes_spec scanning
      (show r.buffEnd + read.bytes.length ≤ r.buff.length by omega)
    have cleanRead : Clean null read.bytes := fun mode member =>
      clean mode (whole ▸ List.mem_append_left _ member)
    have cleanRest : Clean null file'.rest := fun mode member =>
      clean mode (whole ▸ List.mem_append_right _ member)
    obtain ⟨⟨r', bsdtar'⟩, line', scanned, after, buffEnd, passes⟩ :=
      @scan_spec _ null process (buff.length + 1) _ _ _ scanning' cleanRead bsdtar (by omega)
    obtain ⟨delivered, delivers, lines⟩ := passes.lines
    have same : r'.buff.length = r.buff.length := passes.buffer.trans length
    have grows : line'.length ≤ line.length + read.bytes.length := passes.grows
    have total : read.bytes.length + file'.rest.length = file.rest.length := by
      rw [← whole, List.length_append]
    simp only at after buffEnd delivers lines
    rw [stored, ok_bind, scanned, ok_bind, ← whole, lines]
    cases eof : read.feof with
    | true =>
      obtain ⟨nothing, short⟩ := ended eof
      obtain ⟨ret, last, final, deliversFinal⟩ := @finalLine_spec _ null process r' line' after
        (by omega) bsdtar'
      have ends : Ends process (splitLines null r'.lastcharwasr line' []) (r'.ret, bsdtar')
          (.returned ret last) := deliversFinal
      refine ⟨_, by rw [if_pos rfl, if_pos short]; exact final, ?_, fun _ _ _ _ => ⟨ret, last, rfl⟩⟩
      rw [nothing]
      exact ends.after delivers
    | false =>
      rw [if_neg Bool.false_ne_true]
      cases error : read.ferror with
      | true =>
        refine ⟨_, rfl, ⟨delivered, r'.ret, List.prefix_append _ _, delivers⟩, ?_⟩
        intro plan
        have absurdity := (full plan eof).2.1
        rw [error] at absurdity
        exact nomatch absurdity
      | false =>
        rw [if_neg Bool.false_ne_true]
        have less := nearer eof
        by_cases moved : 0 < r'.lineStart
        · rw [if_pos moved]
          obtain ⟨buff', move, length', scanning''⟩ := moveCells_spec after
          have fits := after.fits
          obtain ⟨ending, run, ends, returns⟩ := ih scanning'' cleanRest
            (show r'.buffEnd - r'.lineStart < buff'.length by omega) (by omega) bsdtar'
          refine ⟨ending, by rw [move, ok_bind]; exact run, ends.after delivers, ?_⟩
          intro plan limit within granted
          rw [List.length_append] at within
          exact returns (full plan eof).1 limit (by omega) granted
        · rw [if_neg moved]
          have lineEnd := after.lineEnd
          have bufferEnd := after.buffEnd
          have fits := after.fits
          rw [List.length_nil, Nat.add_zero] at bufferEnd
          have exits : Ends process
              (delivered ++ splitLines null r'.lastcharwasr line' file'.rest) (r.ret, bsdtar)
              (.exit .lineTooLong bsdtar') :=
            ⟨delivered, r'.ret, List.prefix_append _ _, delivers⟩
          -- An unfinished line fills the buffer when every read gets what it asks for.
          have doubles : file.plan = [] → ∀ limit,
              line.length + (read.bytes ++ file'.rest).length ≤ limit → limit < 2 ^ 63 →
              r'.buff.length * 2 % 2 ^ 64 = r'.buff.length * 2 ∧ r'.buff.length ≤ limit := by
            intro plan limit within small
            have filled := (full plan eof).2.2
            rw [List.length_append] at within
            refine ⟨Nat.mod_eq_of_lt ?_, ?_⟩
            · omega
            · omega
          by_cases short : r'.buff.length * 2 % 2 ^ 64 ≤ r'.buff.length
          · refine ⟨_, by rw [if_pos short]; rfl, exits, ?_⟩
            intro plan limit within granted
            have exact := (doubles plan limit within granted.small).1
            omega
          · rw [if_neg short]
            by_cases memory : env.realloc (r'.buff.length * 2 % 2 ^ 64) = true
            · rw [if_pos memory]
              have more : (r'.buff ++ List.replicate
                  (r'.buff.length * 2 % 2 ^ 64 - r'.buff.length) none).length =
                  r'.buff.length * 2 % 2 ^ 64 := by
                rw [List.length_append, List.length_replicate]
                omega
              obtain ⟨ending, run, ends, returns⟩ := ih (after.enlarge _) cleanRest
                (show r'.buffEnd < (r'.buff ++ List.replicate
                  (r'.buff.length * 2 % 2 ^ 64 - r'.buff.length) none).length by omega)
                (by omega) bsdtar'
              refine ⟨ending, run, ends.after delivers, ?_⟩
              intro plan limit within granted
              rw [List.length_append] at within
              exact returns (full plan eof).1 limit (by omega) granted
            · rw [if_neg memory]
              refine ⟨_, rfl, exits, ?_⟩
              intro plan limit within granted
              obtain ⟨exact, limited⟩ := doubles plan limit within granted.small
              rw [exact] at memory
              exact absurd (granted.realloc _ (by omega)) memory

/-- However a file is read, the callback gets its lines, each once, whole and in order, and nothing
is read or written outside the buffer or before it is written: the function returns after the last
line, and an error ends the program after some of the first ones. When every read gets what it asks
for and there is memory for twice the file, the function returns. -/
theorem processLines_lines (null : Bool) (process : σ → List UInt8 → Int × σ) (env : Environment)
    (file : File) (lines : List (List UInt8)) (given : Lines null file.rest lines)
    (clean : null = false → 0 ∉ file.rest) (bsdtar : σ) :
    ∃ ending, processLines null process env file bsdtar = .ok ending ∧
      Ends process lines (0, bsdtar) ending ∧
      (file.plan = [] → env.opens = true → env.malloc = true →
        Granted env file.rest.length → ∃ ret bsdtar', ending = .returned ret bsdtar') := by
  have early (reason : Exit) : Ends process lines (0, bsdtar) (.exit reason bsdtar) :=
    ⟨[], 0, List.nil_prefix, rfl⟩
  rw [processLines]
  cases opens : env.opens with
  | false => exact ⟨_, rfl, early _, fun _ absurdity => nomatch absurdity⟩
  | true =>
    cases malloc : env.malloc with
    | false => exact ⟨_, rfl, early _, fun _ _ absurdity => nomatch absurdity⟩
    | true =>
      have scanning : Scanning ⟨List.replicate 8192 none, 0, 0, 0, false, 0⟩ [] [] :=
        ⟨⟨⟨[], List.replicate 8192 none, rfl, rfl⟩, rfl, rfl⟩, fun _ => rfl, List.not_mem_nil⟩
      have room : 0 < (List.replicate 8192 (none : Option UInt8)).length := by
        rw [List.length_replicate]
        decide
      obtain ⟨ending, run, ends, returns⟩ := @readLoop_spec _ null process env _ file _ _ scanning
        clean room (Nat.lt_succ_self _) bsdtar
      refine ⟨ending, run, ?_, ?_⟩
      · rw [given.eq_splitLines]
        exact ends
      · intro plan _ _ granted
        exact returns plan _ (Nat.le_of_eq (Nat.zero_add _)) granted

/-- A callback that collects the lines. -/
def collect (lines : List (List UInt8)) (line : List UInt8) : Int × List (List UInt8) :=
  (0, lines ++ [line])

/-- A file of two lines, of which a first read gets only the carriage return of the pair. -/
theorem processLines_lines_pair : ∃ ending,
    processLines false collect ⟨true, true, fun _ => true⟩ ⟨[97, 13, 10, 98], [.short 2]⟩ [] =
      .ok ending ∧ Ends collect [[97], [98]] (0, []) ending := by
  have lines : Lines false [97, 13, 10, 98] [[97], [98]] := by
    have found := @splitLines_lines false [] [97, 13, 10, 98] (fun _ absurdity => nomatch absurdity)
    exact found
  obtain ⟨ending, run, ends, _⟩ := processLines_lines false collect ⟨true, true, fun _ => true⟩
    ⟨[97, 13, 10, 98], [.short 2]⟩ [[97], [98]] lines (fun _ => by decide) []
  exact ⟨ending, run, ends⟩

end Loop

end Tarsnap.Tar.ProcessLines
