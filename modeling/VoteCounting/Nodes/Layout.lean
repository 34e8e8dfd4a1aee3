import VoteCounting.Nodes.Parser

namespace VoteCounting.Nodes

open CString

def IsDelim (c : Char) : Prop := delim.contains c

/-- Nothing but blanks and tabs, and the newline if there is one. -/
def EmptyLine (line : CStr) : Prop :=
  ∃ blanks ending, (∀ c ∈ blanks, IsDelim c) ∧ (ending = [] ∨ ending = ['\n']) ∧ line = blanks ++ ending

/-- A token of nothing but white space, such as the newline behind a blank. -/
def BlankToken (token : CStr) : Prop := token.all isspace

instance (token : CStr) : Decidable (BlankToken token) := inferInstanceAs (Decidable (_ = true))

/-- The lines of a file before and after.  A last line without a newline gets one where another
line follows. -/
inductive Relaid : List CStr → List CStr → Prop
  | nil : Relaid [] []
  | inserted {old new : List CStr} {line : CStr} :
      line.head? = some '#' ∨ EmptyLine line → Relaid old new →
      Relaid old (line :: new)
  | kept {old new : List CStr} (body blanks : CStr) : '\n' ∉ body → (∀ c ∈ blanks, IsDelim c) →
      Relaid old new → Relaid ((body ++ ['\n']) :: old) ((body ++ blanks ++ ['\n']) :: new)
  | last (body blanks : CStr) : '\n' ∉ body → (∀ c ∈ blanks, IsDelim c) → Relaid [body] [body ++ blanks]
  | ended {new : List CStr} (body blanks : CStr) :
      '\n' ∉ body → (∀ c ∈ blanks, IsDelim c) → Relaid [] new →
      Relaid [body] ((body ++ blanks ++ ['\n']) :: new)

/-- A line before and after. -/
def Extended (line longer : CStr) : Prop :=
  ∃ body blanks ending, '\n' ∉ body ∧ (∀ c ∈ blanks, IsDelim c) ∧ longer = body ++ blanks ++ ending ∧
    (line = body ++ ending ∧ (ending = [] ∨ ending = ['\n']) ∨ line = body ∧ ending = ['\n'])

/-- The data lines before and after. -/
inductive Spread : List CStr → List CStr → Prop
  | nil : Spread [] []
  | inserted {old new : List CStr} {line : CStr} :
      EmptyLine line → Spread old new → Spread old (line :: new)
  | extended {old new : List CStr} {line longer : CStr} : Extended line longer → Spread old new →
      Spread (line :: old) (longer :: new)

/-- Two tokens that differ in a newline at most. -/
def Alike (token other : CStr) : Prop :=
  other = token ∨ other = token ++ ['\n'] ∨ token = other ++ ['\n']

section Words

variable {line longer body blanks token other : CStr} {tokens others : List CStr}

theorem newline_notDelim : ∀ c ∈ (['\n'] : CStr), delim.contains c = false :=
  List.forall_mem_singleton.mpr (by decide)

theorem words_newline : words delim.contains ['\n'] = [['\n']] := words_word newline_notDelim (by simp)

/-- Behind a blank the newline is a token. -/
theorem words_blank_newline (ends : ∀ c, body.getLast? = some c → IsDelim c) :
    words delim.contains (body ++ ['\n']) = words delim.contains body ++ [['\n']] := by
  rcases List.eq_nil_or_concat body with rfl | ⟨front, c, rfl⟩
  · rw [List.nil_append, words_newline, words_nil, List.nil_append]
  · have blank : delim.contains c := ends c (by simp)
    have one : ∀ d ∈ [c], delim.contains d := by simpa using blank
    rw [List.concat_eq_append, List.append_assoc, List.singleton_append, words_append_delim blank,
      words_newline, words_append_blanks one]

/-- Behind a word the newline is part of it. -/
theorem words_word_newline (nonempty : body ≠ []) (ends : ∀ c, body.getLast? = some c → ¬ IsDelim c) :
    ∃ front final, words delim.contains body = front ++ [final] ∧
      words delim.contains (body ++ ['\n']) = front ++ [final ++ ['\n']] :=
  words_append_word newline_notDelim nonempty fun c last => by simpa [IsDelim] using ends c last

theorem Alike.refl (token : CStr) : Alike token token := .inl rfl

theorem forall₂_alike (tokens : List CStr) : List.Forall₂ Alike tokens tokens :=
  List.forall₂_same.mpr fun token _ => .refl token

theorem forall₂_alike_concat (front : List CStr) (alike : Alike token other) :
    List.Forall₂ Alike (front ++ [token]) (front ++ [other]) :=
  List.rel_append (forall₂_alike front) (.cons alike .nil)

theorem getLast?_blanks (body : CStr) (blank : ∀ c ∈ blanks, IsDelim c) (some : blanks ≠ []) :
    ∀ c, (body ++ blanks).getLast? = .some c → IsDelim c := by
  intro c last
  rw [List.getLast?_append_of_ne_nil _ some] at last
  exact blank c (List.mem_of_getLast? last)

/-- Words behind which a newline is added, with or without blanks. -/
theorem words_ended (blank : ∀ c ∈ blanks, IsDelim c) : ∃ same extra,
    words delim.contains (body ++ blanks ++ ['\n']) = same ++ extra ∧
      List.Forall₂ Alike (words delim.contains body) same ∧ (extra = [] ∨ extra = [['\n']]) := by
  have own : words delim.contains (body ++ blanks) = words delim.contains body :=
    words_append_blanks blank
  by_cases ends : ∀ c, (body ++ blanks).getLast? = some c → IsDelim c
  · exact ⟨_, _, by rw [words_blank_newline ends, own], forall₂_alike _, .inr rfl⟩
  · have bare : blanks = [] := by
      by_contra some
      exact ends (getLast?_blanks body blank some)
    rw [bare, List.append_nil] at ends ⊢
    obtain ⟨c, last, notBlank⟩ : ∃ c, body.getLast? = some c ∧ ¬ IsDelim c := by simpa using ends
    have nonempty : body ≠ [] := by
      rintro rfl
      cases last
    obtain ⟨front, final, before, after⟩ := words_word_newline nonempty fun d found => by
      rw [last, Option.some.injEq] at found
      exact found ▸ notBlank
    refine ⟨_, [], by rw [after, List.append_nil], ?_, .inl rfl⟩
    rw [before]
    exact forall₂_alike_concat front (.inr (.inl rfl))

/-- Words in front of whose newline blanks are added. -/
theorem words_widened (blank : ∀ c ∈ blanks, IsDelim c) : ∃ same extra,
    words delim.contains (body ++ blanks ++ ['\n']) = same ++ extra ∧
      List.Forall₂ Alike (words delim.contains (body ++ ['\n'])) same ∧
        (extra = [] ∨ extra = [['\n']]) := by
  have own : words delim.contains (body ++ blanks) = words delim.contains body :=
    words_append_blanks blank
  by_cases bare : blanks = []
  · rw [bare, List.append_nil]
    exact ⟨_, [], (List.append_nil _).symm, forall₂_alike _, .inl rfl⟩
  · have after := words_blank_newline (getLast?_blanks body blank bare)
    rw [own] at after
    by_cases ends : ∀ c, body.getLast? = some c → IsDelim c
    · rw [after, words_blank_newline ends]
      exact ⟨_, [], (List.append_nil _).symm, forall₂_alike _, .inl rfl⟩
    · obtain ⟨c, last, notBlank⟩ : ∃ c, body.getLast? = some c ∧ ¬ IsDelim c := by simpa using ends
      have nonempty : body ≠ [] := by
        rintro rfl
        cases last
      obtain ⟨front, final, before, ended⟩ := words_word_newline nonempty fun d found => by
        rw [last, Option.some.injEq] at found
        exact found ▸ notBlank
      refine ⟨_, _, after, ?_, .inr rfl⟩
      rw [ended, before]
      exact forall₂_alike_concat front (.inr (.inr rfl))

theorem strcpy_append_of_mem (null : NUL ∈ body) (rest : CStr) :
    strcpy (body ++ rest) = strcpy body := by
  rw [strcpy, strcpy, List.takeWhile_append]
  split
  · rename_i whole
    have all : strcpy body = body := (List.takeWhile_prefix _).eq_of_length whole
    exact absurd (all.symm ▸ null) (nul_not_mem_strcpy body)
  · rfl

theorem delim_notNull (blank : ∀ c ∈ blanks, IsDelim c) : NUL ∉ blanks := by
  intro member
  have null : delim.contains NUL := blank NUL member
  revert null
  decide

/-- A longer line has the words of the shorter one, and sometimes a newline more. -/
theorem argv_extended (extended : Extended line longer) : ∃ same extra, argv longer = same ++ extra ∧
    List.Forall₂ Alike (argv line) same ∧ (extra = [] ∨ extra = [['\n']]) := by
  obtain ⟨body, blanks, ending, _, blank, rfl, whole⟩ := extended
  by_cases null : NUL ∈ body
  · have equal : strcpy line = strcpy (body ++ blanks ++ ending) := by
      rw [List.append_assoc, strcpy_append_of_mem null]
      rcases whole with ⟨rfl, _⟩ | ⟨rfl, _⟩
      · exact strcpy_append_of_mem null _
      · rfl
    exact ⟨_, [], (List.append_nil _).symm, by rw [argv, argv, equal]; exact forall₂_alike _, .inl rfl⟩
  · have free := delim_notNull blank
    have newline : NUL ≠ '\n' := by decide
    rcases whole with ⟨rfl, rfl | rfl⟩ | ⟨rfl, rfl⟩
    · rw [argv, argv, strcpy_of_free (by simp [null, free]), strcpy_of_free (by simp [null]),
        List.append_nil, List.append_nil, makeargv, makeargv, words_append_blanks blank]
      exact ⟨_, [], (List.append_nil _).symm, forall₂_alike _, .inl rfl⟩
    · rw [argv, argv, strcpy_of_free (by simp [null, free, newline]),
        strcpy_of_free (by simp [null, newline])]
      exact words_widened blank
    · rw [argv, argv, strcpy_of_free (by simp [null, free, newline]), strcpy_of_free null]
      exact words_ended blank

/-- An empty line is at most one token. -/
theorem argv_emptyLine (empty : EmptyLine line) : (argv line).length ≤ 1 := by
  obtain ⟨blanks, ending, blank, last, rfl⟩ := empty
  have free := delim_notNull blank
  have newline : NUL ≠ '\n' := by decide
  rcases last with rfl | rfl
  · rw [List.append_nil, argv, strcpy_of_free free, makeargv, words_blanks blank]
    simp
  · rw [argv, strcpy_of_free (by simp [free, newline]), makeargv,
      words_blank_newline fun c last => blank c (List.mem_of_getLast? last), words_blanks blank]
    simp

theorem trimwhitespace_alike (alike : Alike token other) :
    trimwhitespace other = trimwhitespace token := by
  have blank : ∀ c ∈ (['\n'] : CStr), isspace c := List.forall_mem_singleton.mpr (by decide)
  rcases alike with rfl | rfl | rfl
  · rfl
  · exact trim_append_blanks blank
  · exact (trim_append_blanks blank).symm

theorem blankToken_alike (alike : Alike token other) : BlankToken other ↔ BlankToken token := by
  have newline : isspace '\n' := by decide
  rcases alike with rfl | rfl | rfl
  · rfl
  · simp [BlankToken, newline]
  · simp [BlankToken, newline]

/-- The buffer of a token that is not blank loses its newline. -/
theorem trimwhitespaceBuffer_alike (alike : Alike token other) (word : ¬ BlankToken token) :
    trimwhitespaceBuffer other = trimwhitespaceBuffer token := by
  have otherWord : ¬ other.all isspace := mt (blankToken_alike alike).mp word
  have own : ¬ token.all isspace := word
  have blank : ∀ c ∈ (['\n'] : CStr), isspace c := List.forall_mem_singleton.mpr (by decide)
  rw [trimwhitespaceBuffer, if_neg otherWord, trimwhitespaceBuffer, if_neg own]
  rcases alike with rfl | rfl | rfl
  · rfl
  · exact trimEnd_append_blanks blank
  · exact (trimEnd_append_blanks blank).symm

theorem map_trimwhitespace_alike (alike : List.Forall₂ Alike tokens others) :
    others.map trimwhitespace = tokens.map trimwhitespace := by
  induction alike with
  | nil => rfl
  | cons first _ ih => rw [List.map_cons, List.map_cons, trimwhitespace_alike first, ih]

/-- The buffers of the tokens that are not blank. -/
def wordBuffers (tokens : List CStr) : List CStr :=
  (tokens.filter fun token => ¬ BlankToken token).map trimwhitespaceBuffer

theorem wordBuffers_append :
    wordBuffers (tokens ++ others) = wordBuffers tokens ++ wordBuffers others := by
  rw [wordBuffers, List.filter_append, List.map_append, wordBuffers, wordBuffers]

theorem wordBuffers_alike (alike : List.Forall₂ Alike tokens others) :
    wordBuffers others = wordBuffers tokens := by
  induction alike with
  | nil => rfl
  | @cons token other _ _ first _ ih =>
      by_cases blank : BlankToken token
      · have otherBlank := (blankToken_alike first).mpr blank
        simpa [wordBuffers, blank, otherBlank] using ih
      · have otherWord := mt (blankToken_alike first).mp blank
        simpa [wordBuffers, blank, otherWord, trimwhitespaceBuffer_alike first blank] using ih

end Words

section Lines

variable {line longer : CStr} {old new : List CStr}

theorem childTokens_extended (extended : Extended line longer) :
    ∃ same extra, childTokens longer = same ++ extra ∧
    List.Forall₂ Alike (childTokens line) same ∧ (extra = [] ∨ extra = [['\n']]) ∧
    (same ++ extra = [] ∨
      trimwhitespace ((argv longer).headD []) = trimwhitespace ((argv line).headD [])) := by
  obtain ⟨same, extra, whole, alike, either⟩ := argv_extended extended
  rw [childTokens, childTokens, whole]
  generalize argv line = tokens at alike ⊢
  rcases alike with _ | ⟨first, _ | ⟨second, rest⟩⟩
  · refine ⟨[], [], ?_, .nil, .inl rfl, .inl rfl⟩
    rcases either with rfl | rfl <;> rfl
  · refine ⟨[], [], ?_, .nil, .inl rfl, .inl rfl⟩
    rcases either with rfl | rfl <;> rfl
  · exact ⟨_, extra, rfl, rest, either, .inr (trimwhitespace_alike first)⟩

theorem childTokens_emptyLine (empty : EmptyLine line) : childTokens line = [] := by
  have few := argv_emptyLine empty
  exact List.drop_eq_nil_of_le (by omega)

theorem wordBuffers_extended (extended : Extended line longer) :
    wordBuffers (childTokens longer) = wordBuffers (childTokens line) := by
  obtain ⟨same, extra, whole, alike, either, _⟩ := childTokens_extended extended
  have none : wordBuffers extra = [] := by rcases either with rfl | rfl <;> rfl
  rw [whole, wordBuffers_append, none, List.append_nil, wordBuffers_alike alike]

/-- The pairs of a longer line are those of the shorter one, and sometimes a nameless child. -/
theorem edges_extended (extended : Extended line longer) :
    ∃ extra, edges longer = edges line ++ extra ∧ ∀ pair ∈ extra, pair.2 = [] := by
  obtain ⟨same, extra, whole, alike, either, parent⟩ := childTokens_extended extended
  rw [edges, edges, whole]
  rcases parent with none | parent
  · obtain ⟨rfl, rfl⟩ := List.append_eq_nil_iff.mp none
    rw [List.forall₂_nil_right_iff.mp alike]
    exact ⟨[], rfl, by simp⟩
  · let father := trimwhitespace ((argv line).headD [])
    have pairs : ∀ tokens : List CStr, (tokens.map fun token => (father, trimwhitespace token)) =
        (tokens.map trimwhitespace).map (father, ·) := fun tokens => by rw [List.map_map]; rfl
    rw [parent, List.map_append]
    refine ⟨_, congrArg₂ _ ?_ rfl, ?_⟩
    · rw [pairs, pairs, map_trimwhitespace_alike alike]
    · rcases either with rfl | rfl
      · simp
      · have blank : trimwhitespace ['\n'] = [] := by decide
        simp [blank]

theorem Spread.edges_sublist (spread : Spread old new) :
    (old.flatMap edges).Sublist (new.flatMap edges) := by
  induction spread with
  | nil => exact .refl _
  | inserted empty _ ih => exact ih.trans (List.sublist_append_right _ _)
  | extended extended _ ih =>
      obtain ⟨extra, whole, _⟩ := edges_extended extended
      rw [List.flatMap_cons, List.flatMap_cons, whole]
      exact (List.sublist_append_left _ _).append ih

theorem Spread.edges_named (spread : Spread old new) :
    (new.flatMap edges).filter (·.2 ≠ []) = (old.flatMap edges).filter (·.2 ≠ []) := by
  induction spread with
  | nil => rfl
  | @inserted _ _ line empty _ ih =>
      have none : edges line = [] := by rw [edges, childTokens_emptyLine empty, List.map_nil]
      rw [List.flatMap_cons, none, List.nil_append, ih]
  | extended extended _ ih =>
      obtain ⟨extra, whole, nameless⟩ := edges_extended extended
      have none : extra.filter (·.2 ≠ []) = [] := by
        rw [List.filter_eq_nil_iff]
        exact fun pair member => by simp [nameless pair member]
      rw [List.flatMap_cons, List.flatMap_cons, whole, List.filter_append, List.filter_append, none,
        List.append_nil, List.filter_append, ih]

theorem Spread.wordBuffers (spread : Spread old new) :
    wordBuffers (new.flatMap childTokens) = wordBuffers (old.flatMap childTokens) := by
  induction spread with
  | nil => rfl
  | inserted empty _ ih => rw [List.flatMap_cons, childTokens_emptyLine empty, List.nil_append, ih]
  | extended extended _ ih =>
      rw [List.flatMap_cons, List.flatMap_cons, wordBuffers_append, wordBuffers_append,
        wordBuffers_extended extended, ih]

end Lines

/-- Where the layout does not matter. -/
structure Harmless (old new : List CStr) : Prop where
  /-- No empty line is in front of the names line. -/
  lead : ∀ line ∈ (dataLines new).take 2, ¬ EmptyLine line
  /-- The names line has no word more. -/
  names : (regionNames new).length = (regionNames old).length
  /-- No two blank tokens of the child lines are equal. -/
  distinct : (((childLines new).flatMap childTokens).filter BlankToken).Nodup
  /-- Where a region without a name is listed, no region has a nameless child more. -/
  nameless : [] ∈ regionNames old → ∀ parent ∈ regionNames old,
    (declared new).count (parent, []) = (declared old).count (parent, [])

section Files

variable {line longer token : CStr} {old new tokens : List CStr} {c : Char}

theorem Extended.head? (extended : Extended line longer) (notDelim : ¬ IsDelim c)
    (notNewline : c ≠ '\n') :
    longer.head? = some c ↔ line.head? = some c := by
  obtain ⟨body, blanks, ending, _, blank, rfl, whole⟩ := extended
  cases body with
  | cons first rest => rcases whole with ⟨rfl, _⟩ | ⟨rfl, _⟩ <;> rfl
  | nil =>
      refine iff_of_false (fun head => ?_) fun head => ?_
      · rcases List.mem_append.mp (List.mem_of_head? head) with inside | inside
        · exact notDelim (blank c inside)
        · rcases whole with ⟨_, rfl | rfl⟩ | ⟨_, rfl⟩ <;> simp [notNewline] at inside
      · rcases whole with ⟨rfl, rfl | rfl⟩ | ⟨rfl, _⟩ <;> simp [Ne.symm notNewline] at head

/-- Comments stay comments, and the other lines stay what they are. -/
theorem Relaid.spread (relaid : Relaid old new) : Spread (dataLines old) (dataLines new) := by
  have kept : ∀ {line longer : CStr} {old new : List CStr}, Extended line longer →
      Spread (dataLines old) (dataLines new) →
        Spread (dataLines (line :: old)) (dataLines (longer :: new)) := by
    intro line longer old new extended spread
    have same : longer.head? = some '#' ↔ line.head? = some '#' :=
      extended.head? (by unfold IsDelim; decide) (by decide)
    by_cases comment : line.head? = some '#'
    · simpa [dataLines, comment, same.mpr comment] using spread
    · have data := mt same.mp comment
      simpa [dataLines, comment, data] using Spread.extended extended spread
  induction relaid with
  | nil => exact .nil
  | @inserted old new line either _ ih =>
      by_cases comment : line.head? = some '#'
      · simpa [dataLines, comment] using ih
      · simpa [dataLines, comment] using Spread.inserted (either.resolve_left comment) ih
  | @kept _ _ body blanks free blank _ ih =>
      exact kept ⟨body, blanks, ['\n'], free, blank, rfl, .inl ⟨rfl, .inr rfl⟩⟩ ih
  | @last body blanks free blank =>
      have alone : body = body ++ [] := (List.append_nil _).symm
      exact kept ⟨body, blanks, [], free, blank, (List.append_nil _).symm, .inl ⟨alone, .inl rfl⟩⟩ .nil
  | @ended _ body blanks free blank _ ih =>
      exact kept ⟨body, blanks, ['\n'], free, blank, rfl, .inr ⟨rfl, rfl⟩⟩ ih

/-- A longer line comes next, or an empty one. -/
theorem Spread.next (spread : Spread (line :: old) new) :
    (∃ longer rest, new = longer :: rest ∧ Extended line longer ∧ Spread old rest) ∨
    ∃ empty rest, new = empty :: rest ∧ EmptyLine empty := by
  cases spread with
  | inserted empty _ => exact .inr ⟨_, _, rfl, empty⟩
  | extended extended rest => exact .inl ⟨_, _, rfl, extended, rest⟩

theorem mem_trimEnd {text : CStr} (member : c ∈ text) (notBlank : ¬ isspace c) : c ∈ trimEnd text := by
  rw [trimEnd, List.rdropWhile, List.mem_reverse]
  have whole := List.mem_reverse.mpr member
  rw [← List.takeWhile_append_dropWhile (p := isspace) (l := text.reverse)] at whole
  exact (List.mem_append.mp whole).resolve_left fun inside => notBlank (List.mem_takeWhile_imp inside)

theorem wordBuffers_notBlank (member : token ∈ wordBuffers tokens) : ¬ BlankToken token := by
  obtain ⟨word, held, rfl⟩ := List.mem_map.mp member
  have notBlank : ¬ BlankToken word := by simpa using List.of_mem_filter held
  have notAll : ¬ word.all isspace := notBlank
  obtain ⟨c, inside, notSpace⟩ : ∃ c ∈ word, ¬ isspace c := by simpa using notAll
  rw [trimwhitespaceBuffer, if_neg notAll]
  exact fun blank => notSpace (List.all_eq_true.mp blank c (mem_trimEnd inside notSpace))

theorem blankToken_of_mem (member : token ∈ tokens.filter BlankToken) : BlankToken token := by
  simpa using List.of_mem_filter member

/-- The check for cycles sees the words, and apart from them the blank tokens as they are. -/
theorem nodup_visited : (whoWon :: tokens.map trimwhitespaceBuffer).Nodup ↔
    (whoWon :: wordBuffers tokens).Nodup ∧ (tokens.filter BlankToken).Nodup := by
  have same : (tokens.filter BlankToken).map trimwhitespaceBuffer = tokens.filter BlankToken := by
    refine (List.map_congr_left fun token held => ?_).trans (List.map_id _)
    have blank : token.all isspace := blankToken_of_mem held
    rw [trimwhitespaceBuffer, if_pos blank, id]
  have perm : (whoWon :: (tokens.filter BlankToken ++ wordBuffers tokens)).Perm
      (whoWon :: tokens.map trimwhitespaceBuffer) := by
    refine .cons _ ?_
    have split :=
      (List.filter_append_perm (fun token => decide (BlankToken token)) tokens).map
        trimwhitespaceBuffer
    rw [List.map_append, same] at split
    simpa [wordBuffers] using split
  have rootWord : whoWon ∉ tokens.filter BlankToken := by
    intro member
    have blank := blankToken_of_mem member
    revert blank
    decide
  have apart : (tokens.filter BlankToken).Disjoint (wordBuffers tokens) := fun token blank word =>
    wordBuffers_notBlank word (blankToken_of_mem blank)
  rw [← perm.nodup_iff, List.nodup_cons, List.nodup_cons, List.nodup_append', List.mem_append, not_or]
  constructor
  · rintro ⟨⟨_, noWord⟩, blanks, words, _⟩
    exact ⟨⟨noWord, words⟩, blanks⟩
  · rintro ⟨⟨noWord, words⟩, blanks⟩
    exact ⟨⟨rootWord, noWord⟩, blanks, words, apart⟩

theorem head?_strcpy : (strcpy line).head?.any Char.isDigit = line.head?.any Char.isDigit := by
  cases line with
  | nil => rfl
  | cons c rest =>
      by_cases null : c = NUL
      · subst null
        rfl
      · simp [strcpy, null]

theorem digit_notBlank (isDigit : c.isDigit) : ¬ IsDelim c ∧ c ≠ '\n' := by
  refine ⟨fun blank => ?_, fun newline => ?_⟩
  · have either : c = ' ' ∨ c = '\t' := by simpa [IsDelim, delim, or_iff_not_imp_left] using blank
    rcases either with rfl | rfl <;> revert isDigit <;> decide
  · subst newline
    revert isDigit
    decide

theorem Extended.lead (extended : Extended line longer) (digit : (strcpy line).head?.any Char.isDigit) :
    (strcpy longer).head?.any Char.isDigit := by
  rw [head?_strcpy, Option.any_eq_true] at digit ⊢
  obtain ⟨c, head, isDigit⟩ := digit
  have word := digit_notBlank isDigit
  exact ⟨c, (extended.head? word.1 word.2).mpr head, isDigit⟩

theorem EmptyLine.notLead (empty : EmptyLine line) : ¬ (strcpy line).head?.any Char.isDigit := by
  rw [head?_strcpy, Option.any_eq_true]
  rintro ⟨c, head, isDigit⟩
  have word := digit_notBlank isDigit
  obtain ⟨blanks, ending, blank, last, rfl⟩ := empty
  rcases List.mem_append.mp (List.mem_of_head? head) with inside | inside
  · exact word.1 (blank c inside)
  · rcases last with rfl | rfl <;> simp [word.2] at inside

/-- A longer names line has the same regions unless it has a word more. -/
theorem Extended.names (extended : Extended line longer) : ∃ extra,
    (argv longer).map trimwhitespace = (argv line).map trimwhitespace ++ extra := by
  obtain ⟨same, extra, whole, alike, _⟩ := argv_extended extended
  rw [whole, List.map_append, map_trimwhitespace_alike alike]
  exact ⟨_, rfl⟩

/-- Where the first two lines are those of the accepted file, at most longer. -/
theorem accepted_iff_of_longer {first second lead listed : CStr} {rest others : List CStr}
    (accepted : Accepted old) (whole : dataLines old = first :: second :: rest)
    (newWhole : dataLines new = lead :: listed :: others) (leadLonger : Extended first lead)
    (listedLonger : Extended second listed) (spread : Spread rest others) :
    (Accepted new ∧ regionNames new = regionNames old ∧
      ∀ i, childIndices (regionNames new) (declared new) i =
        childIndices (regionNames old) (declared old) i) ↔
      Harmless old new := by
  have names : regionNames old = (argv second).map trimwhitespace := by simp [regionNames, whole]
  have newNames : regionNames new = (argv listed).map trimwhitespace := by simp [regionNames, newWhole]
  have lines : childLines old = rest := by simp [childLines, whole]
  have newLines : childLines new = others := by simp [childLines, newWhole]
  have kids := childIndices_eq_iff (regionNames old) spread.edges_sublist spread.edges_named
  rw [← lines, ← newLines, ← declared, ← declared] at kids
  have words := (nodup_visited.mp accepted.unique).1
  have newWords : wordBuffers ((childLines new).flatMap childTokens) =
      wordBuffers ((childLines old).flatMap childTokens) := by
    rw [lines, newLines]
    exact spread.wordBuffers
  constructor
  · rintro ⟨acceptedNew, same, equal⟩
    refine ⟨fun line member => ?_, congrArg List.length same, (nodup_visited.mp acceptedNew.unique).2,
      kids.mp fun i => same ▸ equal i⟩
    have either : line = lead ∨ line = listed := by simpa [newWhole] using member
    rcases either with rfl | rfl
    · exact fun empty => empty.notLead (by simpa [Leads, newWhole] using acceptedNew.leads)
    · intro empty
      have few := argv_emptyLine empty
      have regions := acceptedNew.regions
      rw [newNames, List.length_map] at regions
      omega
  · intro harmless
    have same : regionNames new = regionNames old := by
      obtain ⟨extra, longer⟩ := listedLonger.names
      rw [newNames, names, longer, List.append_right_eq_self]
      have length := harmless.names
      rw [newNames, names, longer, List.length_append] at length
      exact List.length_eq_zero_iff.mp (by omega)
    have unique := nodup_visited.mpr ⟨newWords ▸ words, harmless.distinct⟩
    refine ⟨⟨?_, same ▸ accepted.regions, unique⟩, same, fun i => ?_⟩
    · have digit : (strcpy first).head?.any Char.isDigit := by simpa [Leads, whole] using accepted.leads
      simpa [Leads, newWhole] using leadLonger.lead digit
    · rw [same]
      exact kids.mpr harmless.nameless i

/-- The accepted file stays accepted, with the same children, exactly where the layout is harmless. -/
theorem accepted_iff (accepted : Accepted old) (relaid : Relaid old new) :
    (Accepted new ∧ regionNames new = regionNames old ∧
      ∀ i, childIndices (regionNames new) (declared new) i =
        childIndices (regionNames old) (declared old) i) ↔
      Harmless old new := by
  obtain ⟨first, second, rest, whole⟩ :
      ∃ first second rest, dataLines old = first :: second :: rest := by
    have regions := accepted.regions
    rw [regionNames] at regions
    rcases shape : dataLines old with _ | ⟨first, _ | ⟨second, rest⟩⟩
    · simp [shape] at regions
    · simp [shape] at regions
    · exact ⟨first, second, rest, rfl⟩
  have spread := relaid.spread
  rw [whole] at spread
  -- An empty line before the regions is read as one of the first two.
  rcases spread.next with ⟨lead, others, newWhole, leadLonger, spread⟩ | ⟨lead, others, newWhole, empty⟩
  · rcases spread.next with ⟨listed, others, rfl, listedLonger, spread⟩ | ⟨listed, others, rfl, empty⟩
    · exact accepted_iff_of_longer accepted whole newWhole leadLonger listedLonger spread
    · refine iff_of_false (fun held => ?_) fun harmless =>
        harmless.lead listed (by simp [newWhole]) empty
      have regions := held.1.regions
      have few := argv_emptyLine empty
      simp only [regionNames, newWhole, List.getElem?_cons_succ, List.getElem?_cons_zero,
        Option.map_some, Option.getD_some, List.length_map] at regions
      omega
  · refine iff_of_false (fun held => ?_) fun harmless => harmless.lead lead (by simp [newWhole]) empty
    exact empty.notLead (by simpa [Leads, newWhole] using held.1.leads)

end Files

/-- The layout does not matter where the added blanks and empty lines are harmless. -/
theorem parseInput_relaid_iff {text newText : List Char} {before : Parse}
    (read : parseInput text = some before) (relaid : Relaid (getlines text) (getlines newText)) :
    (∃ after, parseInput newText = some after ∧ after.names = before.names ∧
        ∀ i, (after.node i).children = (before.node i).children) ↔
      Harmless (getlines text) (getlines newText) := by
  obtain ⟨accepted, rfl⟩ := parseInput_eq_some_iff.mp read
  rw [← accepted_iff accepted relaid]
  constructor
  · rintro ⟨after, readNew, names, children⟩
    obtain ⟨acceptedNew, rfl⟩ := parseInput_eq_some_iff.mp readNew
    exact ⟨acceptedNew, names, children⟩
  · rintro ⟨acceptedNew, names, children⟩
    exact ⟨_, parseInput_eq_some_iff.mpr ⟨acceptedNew, rfl⟩, names, children⟩

def layoutFile : List Char := "1 X\nWho_Won A B\nWho_Won : A\nA : B\n".toList

theorem layoutFile_accepted : Accepted (getlines layoutFile) := ⟨by decide, by decide, by decide⟩

theorem parseInput_relaid_iff_sample : ∃ before, parseInput layoutFile = some before ∧
    ((∃ after, parseInput "1 X\nWho_Won A B\n\nWho_Won : A\t\nA : B\n".toList = some after ∧
        after.names = before.names ∧ ∀ i, (after.node i).children = (before.node i).children) ↔
      Harmless (getlines layoutFile)
        (getlines "1 X\nWho_Won A B\n\nWho_Won : A\t\nA : B\n".toList)) := by
  have relaid :
      Relaid (getlines layoutFile) (getlines "1 X\nWho_Won A B\n\nWho_Won : A\t\nA : B\n".toList) :=
    .kept "1 X".toList [] (by decide) (by simp) <|
    .kept "Who_Won A B".toList [] (by decide) (by simp) <|
    .inserted (.inr ⟨[], ['\n'], by simp, .inr rfl, rfl⟩) <|
    .kept "Who_Won : A".toList ['\t'] (by decide) (by simp [IsDelim, delim]) <|
    .kept "A : B".toList [] (by decide) (by simp) .nil
  have read := parseInput_eq_some_iff.mpr ⟨layoutFile_accepted, rfl⟩
  exact ⟨_, read, parseInput_relaid_iff read relaid⟩

/-- With a blank behind both child lines the newline is a repeated name. -/
theorem blanks_called_loop :
    ∃ (text newText : List Char) (before : Parse), parseInput text = some before ∧
    Relaid (getlines text) (getlines newText) ∧ parseInput newText = none := by
  have relaid :
      Relaid (getlines layoutFile) (getlines "1 X\nWho_Won A B\nWho_Won : A \nA : B \n".toList) :=
    .kept "1 X".toList [] (by decide) (by simp) <|
    .kept "Who_Won A B".toList [] (by decide) (by simp) <|
    .kept "Who_Won : A".toList [' '] (by decide) (by simp [IsDelim, delim]) <|
    .kept "A : B".toList [' '] (by decide) (by simp [IsDelim, delim]) .nil
  refine ⟨_, _, _, parseInput_eq_some_iff.mpr ⟨layoutFile_accepted, rfl⟩, relaid, ?_⟩
  rw [Option.eq_none_iff_forall_ne_some]
  intro after read
  have unique := (parseInput_eq_some_iff.mp read).1.unique
  revert unique
  decide

end VoteCounting.Nodes
