import VoteCounting.Programs.Totals
import VoteCounting.Programs.Cycles
import VoteCounting.Data.Paths
import VoteCounting.Data.Scan

namespace VoteCounting.Programs

open Counters CString Paths Scan

/-! `Vote_Counter`: the winner is read off the result file of a directory.

`Aggregate_Votes` has ended before the file is opened.  Both files that are opened are in the
directory the program was started for, and opening them for writing succeeds.
-/

def strstr (haystack needle : CStr) : Bool := haystack.tails.any needle.isPrefixOf

/-- `winner` and `max` before the first line. -/
def noWinner : Count := ⟨[], 0⟩

/-- `none` where the count is missing and a null pointer is read. -/
def parseTop (best : Count) (canData : CStr) : Option Count :=
  match makeargv canData ':' with
  | name :: count :: _ => some (overtake Entry.count best ⟨name, atoi count⟩)
  | _ => none

def findWinner (best : Count) (line : CStr) : Option Count := (makeargv line ',').foldlM parseTop best

def cycleText : CStr := "There is a cycle".toList

/-- Reports of cycles are skipped. -/
def parseLine (best : Count) (line : CStr) : Option Count :=
  if strstr line cycleText then some best else findWinner best line

/-- The loop of `read_file`; `vote` is a line without the blanks around it. -/
def parseLines (lines : List (List Char)) : Option Count :=
  lines.foldlM (fun best buf => parseLine best (vote buf)) noWinner

/-- The files of the directory by their names. -/
abbrev Files := CStr → Option (List Char)

def inside (path entry : CStr) : CStr := path ++ '/' :: entry

def notWho (path document : CStr) : Bool :=
  !strstr (inside path document) (inside whoWon whoWonFile)

def copyLines (lines : List (List Char)) : List Char := lines.flatMap fun buf => vote buf ++ ['\n']

/-- The program exits without the file.  Opening `Who_Won.txt` with `w+` empties it, also where it is
the file that is read. -/
def readFile (path document : CStr) (files : Files) : Option (Files × Count) :=
  match files document with
  | none => none
  | some text =>
      if notWho path document then
        let emptied := Function.update files whoWonFile (some [])
        let lines := getlines ((emptied document).getD [])
        (parseLines lines).map fun best =>
          (Function.update emptied whoWonFile (some (copyLines lines)), best)
      else (parseLines (getlines text)).map fun best => (files, best)

def announcement (winner : CStr) : List Char := "Winner:".toList ++ winner ++ ['\n']

/-- `fopen` with `a` creates a missing file. -/
def appendLine (files : Files) (entry : CStr) (line : List Char) : Files :=
  Function.update files entry (some ((files entry).getD [] ++ line))

/-- `main` behind `run_aggr`; there is no name in a path without components. -/
def voteCounter (path : CStr) (files : Files) : Option Files :=
  match (makeargv path '/').getLast? with
  | none => none
  | some name =>
      let document := name ++ ".txt".toList
      (readFile path document files).map fun after =>
        let announced := appendLine after.1 whoWonFile (announcement after.2.name)
        if inside path document = inside path whoWonFile then announced
        else appendLine announced document (announcement after.2.name)

section Reading

variable {item : Item} {items : List Item} {best : Count} {path document name winner : CStr}
  {reports : List (CStr × CStr)} {files : Files} {text : List Char}

theorem strstr_iff {haystack needle : CStr} : strstr haystack needle ↔ needle <:+: haystack := by
  simp only [strstr, List.any_eq_true, List.mem_tails, List.isPrefixOf_iff_prefix]
  constructor
  · intro ⟨tail, behind, begins⟩
    exact begins.isInfix.trans behind.isInfix
  · intro ⟨before, after, whole⟩
    exact ⟨needle ++ after, ⟨before, by simpa using whole⟩, List.prefix_append _ _⟩

/-- A line of items that the program reads as it was written. -/
structure Legible (items : List Item) : Prop where
  printed : ∀ item ∈ items, item.Printed
  named : ∀ item ∈ items, item.name ≠ []
  unmarked : ∀ item ∈ items, ¬ cycleText <:+: item.text
  trimmed : trim (lineText items) = lineText items

theorem lineText_cons_cons (first second : Item) (rest : List Item) :
    lineText (first :: second :: rest) = first.text ++ ',' :: lineText (second :: rest) := by
  simp [lineText]

theorem makeargv_lineText (printed : ∀ item ∈ items, item.Printed) :
    makeargv (lineText items) ',' = items.map Item.text := by
  cases items with
  | nil => rfl
  | cons item rest =>
      induction rest generalizing item with
      | nil =>
          have only : lineText [item] = item.text := by simp [lineText]
          rw [only]
          exact tokens_word (printed item (by simp)).noComma Item.text_ne_nil
      | cons second rest ih =>
          rw [lineText_cons_cons, makeargv,
            tokens_word_delim (printed item (by simp)).noComma Item.text_ne_nil]
          exact congrArg _ (ih second fun later member => printed later (by simp [member]))

theorem parseTop_text (printed : item.Printed) (named : item.name ≠ []) :
    parseTop best item.text = some (overtake Entry.count best item.entry) := by
  have words : makeargv item.text ':' = [item.name, item.digits] := by
    rw [makeargv, Item.text, tokens_word_delim printed.name.noColon named,
      tokens_word printed.digits.noColon printed.counted]
  rw [parseTop, words]
  rfl

theorem findWinner_lineText (printed : ∀ item ∈ items, item.Printed)
    (named : ∀ item ∈ items, item.name ≠ []) :
    findWinner best (lineText items) = some (leader Entry.count best (items.map Item.entry)) := by
  rw [findWinner, makeargv_lineText printed]
  induction items generalizing best with
  | nil => rfl
  | cons item rest ih =>
      rw [List.map_cons, List.foldlM_cons, parseTop_text (printed item (by simp)) (named item (by simp))]
      exact ih (fun later member => printed later (by simp [member]))
        fun later member => named later (by simp [member])

theorem lineText_unmarked (unmarked : ∀ item ∈ items, ¬ cycleText <:+: item.text) :
    ¬ cycleText <:+: lineText items := by
  have long : cycleText ≠ [] := by decide
  have noComma : ',' ∉ cycleText := by decide
  cases items with
  | nil => simpa [lineText] using long
  | cons item rest =>
      induction rest generalizing item with
      | nil => simpa [lineText] using unmarked item (by simp)
      | cons second rest ih =>
          rw [lineText_cons_cons]
          intro found
          rcases infix_append_sep found noComma with own | later
          · exact unmarked item (by simp) own
          · exact ih second (fun later member => unmarked later (by simp [member])) later

theorem Legible.parseLine (legible : Legible items) :
    parseLine best (vote (lineText items ++ ['\n'])) =
      some (leader Entry.count best (items.map Item.entry)) := by
  have line : vote (lineText items ++ ['\n']) = lineText items := by
    rw [vote_newline, vote, strcpy_of_free (lineText_noNull legible.printed)]
    exact legible.trimmed
  have plain : ¬ strstr (lineText items) cycleText := fun found =>
    lineText_unmarked legible.unmarked (strstr_iff.mp found)
  rw [line, Programs.parseLine, if_neg plain]
  exact findWinner_lineText legible.printed legible.named

/-- The ends of a report of a cycle. -/
structure Link (report : CStr × CStr) : Prop where
  noNewline : '\n' ∉ report.1 ++ report.2
  noNull : NUL ∉ report.1 ++ report.2

def cycleBody (report : CStr × CStr) : CStr :=
  "There is a cycle from ".toList ++ (report.1 ++ " to ".toList ++ report.2 ++ ['.'])

theorem cycleLine_eq (report : CStr × CStr) :
    cycleLine report.1 report.2 = cycleBody report ++ ['\n'] := by
  have last : ".\n".toList = ['.', '\n'] := rfl
  unfold cycleLine cycleBody
  generalize "There is a cycle from ".toList = opening, " to ".toList = middle
  simp [last]

theorem mem_cycleBody {report : CStr × CStr} {c : Char} (member : c ∈ cycleBody report) :
    c ∈ "There is a cycle from ".toList ∨ c ∈ report.1 ++ report.2 ∨ c ∈ " to ".toList ∨ c = '.' := by
  unfold cycleBody at member
  revert member
  generalize "There is a cycle from ".toList = opening, " to ".toList = middle
  simp only [List.mem_append, List.mem_singleton]
  tauto

theorem Link.body_noNewline {report : CStr × CStr} (link : Link report) : '\n' ∉ cycleBody report := by
  intro member
  rcases mem_cycleBody member with front | own | middle | last
  · revert front
    decide
  · exact link.noNewline own
  · revert middle
    decide
  · cases last

theorem Link.body_noNull {report : CStr × CStr} (link : Link report) : NUL ∉ cycleBody report := by
  intro member
  rcases mem_cycleBody member with front | own | middle | last
  · revert front
    decide
  · exact link.noNull own
  · revert middle
    decide
  · revert last
    decide

theorem vote_cycleBody {report : CStr × CStr} (link : Link report) :
    vote (cycleBody report) = cycleBody report := by
  obtain ⟨front, whole⟩ : ∃ front, cycleBody report = front ++ ['.'] :=
    ⟨_, (List.append_assoc _ _ _).symm⟩
  have nonempty : cycleBody report ≠ [] := by rw [whole]; simp
  have ending : (cycleBody report).getLast nonempty = '.' :=
    (List.getLast_congr nonempty (by simp) whole).trans List.getLast_concat
  unfold vote
  rw [strcpy_of_free link.body_noNull]
  refine trim_eq_self_of_ends nonempty (by decide : ¬ isspace 'T') ?_
  rw [ending]
  decide

theorem Link.parseLine {report : CStr × CStr} (link : Link report) :
    parseLine best (vote (cycleBody report ++ ['\n'])) = some best := by
  have marked : strstr (cycleBody report) cycleText := by
    refine strstr_iff.mpr ⟨[], " from ".toList ++ (report.1 ++ " to ".toList ++ report.2 ++ ['.']), ?_⟩
    rfl
  rw [vote_newline, vote_cycleBody link, Programs.parseLine, if_pos marked]

/-- A result file: the reports of the links, and one line of items behind them. -/
def resultText (reports : List (CStr × CStr)) (items : List Item) : List Char :=
  reports.flatMap (fun report => cycleLine report.1 report.2) ++ (lineText items ++ ['\n'])

theorem getlines_resultText (links : ∀ report ∈ reports, Link report)
    (printed : ∀ item ∈ items, item.Printed) :
    getlines (resultText reports items) =
      reports.map (fun report => cycleBody report ++ ['\n']) ++ [lineText items ++ ['\n']] := by
  have bodies : resultText reports items =
      (reports.map cycleBody ++ [lineText items]).flatMap fun body => body ++ ['\n'] := by
    simp only [resultText, List.flatMap_append, List.flatMap_map, List.flatMap_singleton, cycleLine_eq]
  rw [bodies, getlines_flatMap (fun body => body) _ ?_, List.map_append, List.map_map]
  · rfl
  · intro body member
    rcases List.mem_append.mp member with early | last
    · obtain ⟨report, held, rfl⟩ := List.mem_map.mp early
      exact (links report held).body_noNewline
    · obtain rfl := List.mem_singleton.mp last
      exact lineText_noNewline printed

/-- The scan of a result file ends at the first of the largest counts. -/
theorem parseLines_resultText (links : ∀ report ∈ reports, Link report) (legible : Legible items) :
    parseLines (getlines (resultText reports items)) =
      some (leader Entry.count noWinner (items.map Item.entry)) := by
  rw [getlines_resultText links legible.printed, parseLines]
  induction reports with
  | nil =>
      rw [List.map_nil, List.nil_append, List.foldlM_cons, legible.parseLine]
      rfl
  | cons report rest ih =>
      rw [List.map_cons, List.cons_append, List.foldlM_cons, (links report (by simp)).parseLine]
      exact ih fun later member => links later (by simp [member])

theorem copyLines_resultText (links : ∀ report ∈ reports, Link report) (legible : Legible items) :
    copyLines (getlines (resultText reports items)) = resultText reports items := by
  have line : vote (lineText items ++ ['\n']) = lineText items := by
    rw [vote_newline, vote, strcpy_of_free (lineText_noNull legible.printed)]
    exact legible.trimmed
  have body : ∀ report ∈ reports, vote (cycleBody report ++ ['\n']) ++ ['\n'] =
      cycleLine report.1 report.2 := fun report member => by
    rw [vote_newline, vote_cycleBody (links report member), cycleLine_eq]
  rw [getlines_resultText links legible.printed, copyLines, List.flatMap_append,
    List.flatMap_singleton, line, List.flatMap_map, List.flatMap_congr body]
  rfl

end Reading

section Announcing

variable {items : List Item} {path name : CStr} {reports : List (CStr × CStr)} {files : Files}

def resultFile (name : CStr) : CStr := name ++ ".txt".toList

/-- Who is announced for these items. -/
def winnerOf (items : List Item) : CStr := (leader Entry.count noWinner (items.map Item.entry)).name

theorem resultFile_whoWon : resultFile whoWon = whoWonFile := rfl

theorem resultFile_eq_iff : resultFile name = whoWonFile ↔ name = whoWon := by
  rw [← resultFile_whoWon]
  exact List.append_left_inj _

theorem announcement_length (winner : CStr) : (announcement winner).length = 8 + winner.length := by
  have opening : "Winner:".toList.length = 7 := rfl
  unfold announcement
  rw [List.length_append, List.length_append, opening, List.length_singleton]
  omega

theorem resultText_length_pos (reports : List (CStr × CStr)) (items : List Item) :
    0 < (resultText reports items).length := by
  rw [resultText, List.length_append, List.length_append, List.length_singleton]
  omega

theorem inside_inj {entry other : CStr} : inside path entry = inside path other ↔ entry = other := by
  simp [inside]

theorem readFile_kept (links : ∀ report ∈ reports, Link report) (legible : Legible items)
    (file : files (resultFile name) = some (resultText reports items))
    (kept : notWho path (resultFile name) → name ≠ whoWon) :
    readFile path (resultFile name) files = some
      (if notWho path (resultFile name) then
          Function.update files whoWonFile (some (resultText reports items)) else files,
        leader Entry.count noWinner (items.map Item.entry)) := by
  have scanned := parseLines_resultText links legible
  unfold readFile
  rw [file]
  by_cases other : notWho path (resultFile name)
  · have apart : resultFile name ≠ whoWonFile := fun same => kept other (resultFile_eq_iff.mp same)
    have text : Function.update files whoWonFile (some []) (resultFile name) =
        some (resultText reports items) := by
      rw [Function.update_of_ne apart, file]
    simp only [if_pos other, text, Option.getD_some, scanned, Option.map_some,
      copyLines_resultText links legible, Function.update_idem]
  · simp only [if_neg other, scanned, Option.map_some]

/-- Every file is left alone but the two that are announced in. -/
theorem voteCounter_kept (links : ∀ report ∈ reports, Link report) (legible : Legible items)
    (component : (makeargv path '/').getLast? = some name)
    (file : files (resultFile name) = some (resultText reports items))
    (kept : notWho path (resultFile name) → name ≠ whoWon) :
    ∃ after, voteCounter path files = some after ∧
      after (resultFile name) = some (resultText reports items ++ announcement (winnerOf items)) ∧
      (notWho path (resultFile name) → after whoWonFile = after (resultFile name)) ∧
      ∀ entry, entry ≠ resultFile name → entry ≠ whoWonFile → after entry = files entry := by
  have ran := readFile_kept links legible file kept
  unfold voteCounter
  rw [component]
  simp only [← resultFile.eq_def, ran, Option.map_some, inside_inj]
  refine ⟨_, rfl, ?_⟩
  by_cases same : name = whoWon
  · have own : resultFile name = whoWonFile := resultFile_eq_iff.mpr same
    have read : ¬ notWho path (resultFile name) := fun other => kept other same
    rw [own] at file read ⊢
    simp only [if_pos, if_neg read, appendLine, Function.update_self, file, Option.getD_some]
    exact ⟨rfl, fun _ => trivial, fun entry other _ => Function.update_of_ne other _ _⟩
  · have apart : resultFile name ≠ whoWonFile := fun own => same (resultFile_eq_iff.mp own)
    simp only [if_neg apart, appendLine, Function.update_self, Function.update_of_ne apart,
      Function.update_of_ne (Ne.symm apart)]
    refine ⟨?_, fun other => ?_, fun entry notDocument notWhoWon => ?_⟩
    · split
      · rw [Function.update_of_ne apart, file]
        rfl
      · rw [file]
        rfl
    · rw [if_pos other, Function.update_self, Function.update_of_ne apart, file]
    · rw [Function.update_of_ne notDocument, Function.update_of_ne notWhoWon]
      split
      · exact Function.update_of_ne notWhoWon _ _
      · rfl

/-- The file is empty before it is read, and nobody has won. -/
theorem voteCounter_emptied (component : (makeargv path '/').getLast? = some whoWon)
    (present : files whoWonFile ≠ none) (other : notWho path whoWonFile) :
    voteCounter path files = some (Function.update files whoWonFile (some (announcement []))) := by
  obtain ⟨text, file⟩ := Option.ne_none_iff_exists'.mp present
  have ran : readFile path whoWonFile files =
      some (Function.update files whoWonFile (some []), noWinner) := by
    unfold readFile
    simp only [file, if_pos other, Function.update_self, Option.getD_some, Function.update_idem]
    rfl
  have own : whoWon ++ ".txt".toList = whoWonFile := rfl
  unfold voteCounter
  rw [component]
  simp only [own, ran, Option.map_some, if_pos, appendLine, Function.update_self, Option.getD_some,
    Function.update_idem, List.nil_append]
  rfl

def oneResult : List Item := [⟨"Al".toList, ['1']⟩]

theorem legible_oneResult : Legible oneResult where
  printed := by
    rw [oneResult, List.forall_mem_singleton]
    exact ⟨plain_of_all (by decide), plain_of_all (by decide), by decide⟩
  named := by
    rw [oneResult, List.forall_mem_singleton]
    decide
  unmarked := by
    rw [oneResult, List.forall_mem_singleton]
    decide
  trimmed := by decide

end Announcing

end VoteCounting.Programs
