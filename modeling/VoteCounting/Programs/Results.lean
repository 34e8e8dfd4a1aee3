import VoteCounting.Strings
import VoteCounting.Data.Counters
import VoteCounting.Data.Loop

namespace VoteCounting.Programs

open Counters CString

abbrev Count := Entry CStr

/-- The program exits unless there are exactly two parts. -/
def nameAndCount (argtemp : CStr) : Option Count :=
  match makeargv argtemp ':' with
  | [name, count] => some ⟨name, atoi count⟩
  | _ => none

/-- The loop over the items of a line.  The list is searched behind the root. -/
def addLine (counters : List Count) (buf : CStr) : Option (List Count) :=
  (makeargv buf ',').foldlM (fun counters token =>
    (nameAndCount token).map fun pair => credit (2 ^ 32) counters pair.name pair.count) counters

/-- Only one line is read, and a file without lines adds nothing. -/
def addFile (counters : List Count) (text : List Char) : Option (List Count) :=
  match getlines text with
  | [] => some counters
  | line :: _ => addLine counters (strcpy line)

/-- The names and counts the loop reads from a file. -/
def readPairs (text : List Char) : Option (List Count) :=
  match getlines text with
  | [] => some []
  | line :: _ => (makeargv (strcpy line) ',').mapM nameAndCount

theorem addFile_eq (counters : List Count) (text : List Char) :
    addFile counters text = (readPairs text).map (creditAll (2 ^ 32) counters) := by
  rw [addFile, readPairs]
  split
  · rfl
  · exact Loop.foldlM_map nameAndCount fun counters pair =>
      credit (2 ^ 32) counters pair.name pair.count

/-- A name with its count as it is printed. -/
structure Item where
  name : CStr
  digits : CStr
deriving DecidableEq, Repr

def Item.text (item : Item) : CStr := item.name ++ ':' :: item.digits

def Item.entry (item : Item) : Count := ⟨item.name, atoi item.digits⟩

def lineText : List Item → CStr
  | [] => []
  | item :: rest => item.text ++ rest.flatMap fun item => ',' :: item.text

/-- What a line gives back of an item. -/
def Item.read (item : Item) : Option Count := if item.name = [] then none else some item.entry

/-- Free of the bytes the reader looks for. -/
structure Plain (word : CStr) : Prop where
  noComma : ',' ∉ word
  noColon : ':' ∉ word
  noNewline : '\n' ∉ word
  noNull : NUL ∉ word

structure Item.Printed (item : Item) : Prop where
  name : Plain item.name
  digits : Plain item.digits
  counted : item.digits ≠ []

/-- The file starts with a line of these items. -/
def StartsWith (items : List Item) (text : List Char) : Prop :=
  ∃ rest, text = lineText items ++ rest ∧ (rest = [] ∨ rest.head? = some '\n')

section Lines

variable {item : Item} {items : List Item} {text tail : List Char} {c : Char}

theorem Item.Printed.noComma (printed : item.Printed) : ',' ∉ item.text := by
  simp [Item.text, printed.name.noComma, printed.digits.noComma]

theorem Item.Printed.noNewline (printed : item.Printed) : '\n' ∉ item.text := by
  simp [Item.text, printed.name.noNewline, printed.digits.noNewline]

theorem Item.Printed.noNull (printed : item.Printed) : NUL ∉ item.text := by
  have colon : NUL ≠ ':' := by decide
  simp [Item.text, printed.name.noNull, printed.digits.noNull, colon]

theorem Item.text_ne_nil : item.text ≠ [] := by simp [Item.text]

/-- A newline after the last count is not read. -/
theorem nameAndCount_text (printed : item.Printed) (last : tail = [] ∨ tail = ['\n']) :
    nameAndCount (item.text ++ tail) = item.read := by
  have count : makeargv (item.digits ++ tail) ':' = [item.digits ++ tail] := by
    have noColon : ':' ∉ tail := by
      rcases last with rfl | rfl <;> decide
    exact tokens_word (by simp [printed.digits.noColon, noColon]) (by simp [printed.counted])
  have value : atoi (item.digits ++ tail) = atoi item.digits := by
    rcases last with rfl | rfl
    · rw [List.append_nil]
    · exact atoi_newline item.digits
  have whole : item.text ++ tail = item.name ++ ':' :: (item.digits ++ tail) := by simp [Item.text]
  rw [nameAndCount, whole, Item.read]
  by_cases unnamed : item.name = []
  · have words : makeargv (item.name ++ ':' :: (item.digits ++ tail)) ':' = [item.digits ++ tail] := by
      rw [makeargv, tokens_append_delim, unnamed, tokens_nil, List.nil_append]
      exact count
    rw [words, if_pos unnamed]
  · have words : makeargv (item.name ++ ':' :: (item.digits ++ tail)) ':' =
        [item.name, item.digits ++ tail] := by
      rw [makeargv, tokens_word_delim printed.name.noColon unnamed]
      exact congrArg _ count
    rw [words, if_neg unnamed]
    simp only [value]
    rfl

theorem mem_lineText (member : c ∈ lineText items) : c = ',' ∨ ∃ item ∈ items, c ∈ item.text := by
  cases items with
  | nil => cases member
  | cons item rest =>
      simp only [lineText, List.mem_append, List.mem_flatMap, List.mem_cons] at member
      rcases member with own | ⟨later, held, same | inside⟩
      · exact .inr ⟨item, List.mem_cons_self, own⟩
      · exact .inl same
      · exact .inr ⟨later, List.mem_cons_of_mem _ held, inside⟩

theorem lineText_noNewline (printed : ∀ item ∈ items, item.Printed) : '\n' ∉ lineText items := by
  intro member
  rcases mem_lineText member with same | ⟨item, held, inside⟩
  · cases same
  · exact (printed item held).noNewline inside

theorem lineText_noNull (printed : ∀ item ∈ items, item.Printed) : NUL ∉ lineText items := by
  intro member
  rcases mem_lineText member with same | ⟨item, held, inside⟩
  · revert same
    decide
  · exact (printed item held).noNull inside

theorem lineText_ne_nil (filled : items ≠ []) : lineText items ≠ [] := by
  cases items with
  | nil => exact absurd rfl filled
  | cons item rest => simp [lineText, Item.text]

theorem mapM_lineText (printed : ∀ item ∈ items, item.Printed) (last : tail = [] ∨ tail = ['\n'])
    (filled : items ≠ []) :
    (makeargv (lineText items ++ tail) ',').mapM nameAndCount = items.mapM Item.read := by
  cases items with
  | nil => exact absurd rfl filled
  | cons item rest =>
      clear filled
      induction rest generalizing item with
      | nil =>
          have own := printed item (by simp)
          have noComma : ',' ∉ tail := by
            rcases last with rfl | rfl <;> decide
          have words : makeargv (lineText [item] ++ tail) ',' = [item.text ++ tail] := by
            rw [makeargv]
            simp only [lineText, List.flatMap_nil, List.append_nil]
            exact tokens_word (by simp [own.noComma, noComma]) (by simp [Item.text_ne_nil])
          simp [words, nameAndCount_text own last]
      | cons second rest ih =>
          have own := printed item (by simp)
          have first := nameAndCount_text own (.inl rfl)
          have words : makeargv (lineText (item :: second :: rest) ++ tail) ',' =
              item.text :: makeargv (lineText (second :: rest) ++ tail) ',' := by
            simp only [makeargv, lineText, List.flatMap_cons, List.append_assoc, List.cons_append]
            exact tokens_word_delim own.noComma Item.text_ne_nil _
          rw [List.append_nil] at first
          rw [words, List.mapM_cons, first, ih second fun later member =>
            printed later (by simp [member])]
          exact List.mapM_cons.symm

theorem readPairs_startsWith (printed : ∀ item ∈ items, item.Printed) (filled : items ≠ [])
    (starts : StartsWith items text) : readPairs text = items.mapM Item.read := by
  have noNull := lineText_noNull printed
  have noNewline := lineText_noNewline printed
  obtain ⟨rest, rfl, ending⟩ := starts
  have first : ∃ tail others, getlines (lineText items ++ rest) = (lineText items ++ tail) :: others ∧
      (tail = [] ∨ tail = ['\n']) := by
    rcases ending with rfl | newline
    · refine ⟨[], [], ?_, .inl rfl⟩
      rw [List.append_nil, getlines_last noNewline (lineText_ne_nil filled)]
    · obtain ⟨others, rfl⟩ := List.head?_eq_some_iff.mp newline
      exact ⟨['\n'], getlines others, getlines_line noNewline others, .inr rfl⟩
  obtain ⟨tail, others, lines, last⟩ := first
  have free : NUL ∉ lineText items ++ tail := by
    have newline : NUL ≠ '\n' := by decide
    rcases last with rfl | rfl <;> simp [noNull, newline]
  rw [readPairs, lines]
  simp only [strcpy_of_free free]
  exact mapM_lineText printed last filled

/-- All items are read exactly if all of them have a name. -/
theorem mapM_read_eq_some_iff :
    items.mapM Item.read = some (items.map Item.entry) ↔ ∀ item ∈ items, item.name ≠ [] := by
  induction items with
  | nil => simp
  | cons item rest ih =>
      by_cases unnamed : item.name = []
      · simp [Item.read, unnamed]
      · have first : item.read = some item.entry := if_neg unnamed
        rw [List.mapM_cons, first]
        cases read : rest.mapM Item.read with
        | none => simp [unnamed, ← ih, read]
        | some entries => simp [unnamed, ← ih, read]

end Lines

end VoteCounting.Programs
