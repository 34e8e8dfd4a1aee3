import VoteCounting.Programs.VoteCounter

namespace VoteCounting.Programs

open Counters CString Scan

def Directory.votes : Directory → Option (List Char)
  | mk _ votes _ _ => votes

/-- The votes of a directory, one a line. -/
def ballots (dir : Directory) : List CStr := (getlines (dir.votes.getD [])).map vote

def votesBelow (dir : Directory) : List CStr := (leaves dir).flatMap ballots

/-- What `Leaf_Counter` lists in a directory. -/
def listed (sort : List (List Char) → List (List Char)) (dir : Directory) : List Item :=
  printed (fileOpener sort (dir.votes.getD [])).tail

/-- Every line is a vote that is printed and read back. -/
structure Countable (text : List Char) : Prop where
  voted : getlines text ≠ []
  filled : ∀ line ∈ getlines text, vote line ≠ []
  separable : ∀ line ∈ getlines text, ',' ∉ vote line ∧ ':' ∉ vote line
  unrooted : ∀ line ∈ getlines text, vote line ≠ rootNode.name
  unmarked : ∀ line ∈ getlines text, ¬ cycleText <:+: vote line

section Leaves

variable {sort : List (List Char) → List (List Char)} {dir leaf : Directory} {name : CStr}
  {text : List Char} {entries : List Count}

theorem mem_names_listed (sorts : ∀ lines, (sort lines).Perm lines)
    (countable : Countable (dir.votes.getD [])) :
    name ∈ names (fileOpener sort (dir.votes.getD [])).tail ↔ name ∈ ballots dir := by
  rw [mem_names_candidates sorts, ballots, List.mem_map]
  constructor
  · exact fun candidate => candidate.2
  · rintro ⟨line, held, rfl⟩
    exact ⟨countable.unrooted line held, line, held, rfl⟩

theorem fits_tail : ∀ node ∈ (fileOpener sort text).tail, Fits (2 ^ 32) node.count :=
  fun node member => fileOpener_fits node (List.mem_of_mem_tail member)

theorem map_entry_listed :
    (listed sort dir).map Item.entry = (fileOpener sort (dir.votes.getD [])).tail :=
  map_entry_printed fits_tail

/-- What is known of a name that someone voted for. -/
structure Votable (name : CStr) : Prop where
  plain : Plain name
  filled : name ≠ []
  trimmed : trim name = name
  unmarked : ¬ cycleText <:+: name

theorem Countable.votable (countable : Countable (dir.votes.getD [])) (member : name ∈ ballots dir) :
    Votable name := by
  obtain ⟨line, held, rfl⟩ := List.mem_map.mp member
  obtain ⟨noComma, noColon⟩ := countable.separable line held
  exact ⟨⟨noComma, noColon, vote_noNewline held, vote_noNull⟩, countable.filled line held, trim_trim,
    countable.unmarked line held⟩

theorem leaf_result (leaf : dir.subdirs = []) (present : dir.votes ≠ none) :
    (run sort dir).result = some (lineText (listed sort dir) ++ ['\n']) := by
  obtain ⟨name, votes, result, subdirs⟩ := dir
  obtain rfl : subdirs = [] := leaf
  obtain ⟨text, rfl⟩ : ∃ text, votes = some text := Option.ne_none_iff_exists'.mp present
  exact congrArg some printResults_fileOpener

theorem Countable.lists (sorts : ∀ lines, (sort lines).Perm lines)
    (countable : Countable (dir.votes.getD [])) (leaf : dir.subdirs = []) (present : dir.votes ≠ none) :
    Lists sort dir (listed sort dir) where
  filled := by
    obtain ⟨line, held⟩ := List.exists_mem_of_ne_nil _ countable.voted
    have named : vote line ∈ names (fileOpener sort (dir.votes.getD [])).tail :=
      (mem_names_listed sorts countable).mpr (List.mem_map_of_mem held)
    obtain ⟨node, member, _⟩ := List.mem_map.mp named
    exact List.ne_nil_of_mem (List.mem_map_of_mem member)
  printed := printed_printed fun name member =>
    (countable.votable ((mem_names_listed sorts countable).mp member)).plain
  named := by
    intro item member
    obtain ⟨node, held, rfl⟩ := List.mem_map.mp member
    exact (countable.votable ((mem_names_listed sorts countable).mp (List.mem_map_of_mem held))).filled
  starts := ⟨_, leaf_result leaf present, ['\n'], rfl, .inr rfl⟩

theorem Countable.total_listed (sorts : ∀ lines, (sort lines).Perm lines)
    (countable : Countable (dir.votes.getD [])) (few : ∀ name, (ballots dir).count name < 2 ^ 31)
    (name : CStr) : total ((listed sort dir).map Item.entry) name = (ballots dir).count name := by
  have tallied : Tallied (fileOpener sort (dir.votes.getD [])).tail (ballots dir) :=
    tallied_of_unrooted sorts countable.unrooted few
  rw [map_entry_listed]
  by_cases voted : name ∈ ballots dir
  · have node := (tallied.exact ⟨name, (ballots dir).count name⟩).mpr ⟨voted, rfl⟩
    exact total_of_mem tallied.once node
  · rw [List.count_eq_zero_of_not_mem voted]
    exact total_of_absent fun listed => voted ((mem_names_listed sorts countable).mp listed)

theorem leaves_ne_nil (dir : Directory) : leaves dir ≠ [] := by
  induction dir using Directory.induction with
  | step dir ih =>
      by_cases leaf : dir.subdirs = []
      · simp [leaves_of_leaf leaf]
      · obtain ⟨sub, held⟩ := List.exists_mem_of_ne_nil _ leaf
        obtain ⟨below, member⟩ := List.exists_mem_of_ne_nil _ (ih sub held)
        rw [leaves_of_inner leaf]
        exact List.ne_nil_of_mem (List.mem_flatMap.mpr ⟨sub, held, member⟩)

theorem count_ballots_le (member : leaf ∈ leaves dir) :
    (ballots leaf).count name ≤ (votesBelow dir).count name :=
  (List.sublist_flatten_of_mem (List.mem_map_of_mem member)).count_le name

theorem leaf_subdirs (member : leaf ∈ leaves dir) : leaf.subdirs = [] :=
  List.isEmpty_iff.mp (List.mem_filter.mp member).2

end Leaves

section Totals

variable {sort : List (List Char) → List (List Char)} {dir : Directory} {entries : List Count}

/-- A tree that `Aggregate_Votes` can add up. -/
structure Electable (dir : Directory) : Prop where
  present : ∀ leaf ∈ leaves dir, leaf.votes ≠ none
  countable : ∀ leaf ∈ leaves dir, Countable (leaf.votes.getD [])
  apart : ∀ inner ∈ directories dir, ∀ sub ∈ inner.subdirs, sub.name ≠ inner.name ++ ".txt".toList
  few : ∀ name, (votesBelow dir).count name < 2 ^ 31

theorem Electable.lists (electable : Electable dir) (sorts : ∀ lines, (sort lines).Perm lines) :
    ∀ leaf ∈ leaves dir, Lists sort leaf (listed sort leaf) := fun leaf member =>
  (electable.countable leaf member).lists sorts (leaf_subdirs member) (electable.present leaf member)

theorem Electable.total_cast (electable : Electable dir) (sorts : ∀ lines, (sort lines).Perm lines)
    (name : CStr) : total (cast (listed sort) dir) name = (votesBelow dir).count name := by
  have each : ∀ leaf ∈ leaves dir, total ((listed sort leaf).map Item.entry) name =
      ((ballots leaf).count name : Int) := fun leaf member =>
    (electable.countable leaf member).total_listed sorts
      (fun name => lt_of_le_of_lt (count_ballots_le member) (electable.few name)) name
  rw [cast, total_flatMap, List.map_congr_left each, votesBelow, List.count_flatMap]
  simp [Function.comp_def]

theorem Electable.mem_names_cast (electable : Electable dir)
    (sorts : ∀ lines, (sort lines).Perm lines) (name : CStr) :
    name ∈ names (cast (listed sort) dir) ↔ name ∈ votesBelow dir := by
  rw [cast, mem_names_flatMap, votesBelow, List.mem_flatMap]
  refine exists_congr fun leaf => and_congr_right fun member => ?_
  rw [map_entry_listed]
  exact mem_names_listed sorts (electable.countable leaf member)

theorem Electable.votable (electable : Electable dir) {name : CStr} (member : name ∈ votesBelow dir) :
    Votable name := by
  obtain ⟨leaf, held, own⟩ := List.mem_flatMap.mp member
  exact (electable.countable leaf held).votable own

/-- The entries of a result line: every candidate once, with all votes below the directory. -/
structure Elected (dir : Directory) (entries : List Count) : Prop where
  unique : (names entries).Nodup
  listed : ∀ name, name ∈ names entries ↔ name ∈ votesBelow dir
  exact : ∀ name, total entries name = (votesBelow dir).count name
  fits : ∀ entry ∈ entries, Fits (2 ^ 32) entry.count

theorem Electable.run_result (electable : Electable dir) (sorts : ∀ lines, (sort lines).Perm lines) :
    ∃ entries, (run sort dir).result = some (lineText (printed entries) ++ ['\n']) ∧
      Elected dir entries := by
  have lists := electable.lists sorts
  obtain ⟨pairs, reports, inner⟩ := run_reports lists fun inner member =>
    blocked_eq_false (electable.apart inner member)
  by_cases leaf : dir.subdirs = []
  · have own : dir ∈ leaves dir := by simp [leaves_of_leaf leaf]
    have below : votesBelow dir = ballots dir := by simp [votesBelow, leaves_of_leaf leaf]
    have few := electable.few
    rw [below] at few
    have tallied : Tallied (fileOpener sort (dir.votes.getD [])).tail (ballots dir) :=
      tallied_of_unrooted sorts (electable.countable dir own).unrooted few
    refine ⟨_, leaf_result leaf (electable.present dir own), tallied.once, ?_, ?_, fits_tail⟩
    · exact fun name => below ▸ mem_names_listed sorts (electable.countable dir own)
    · intro name
      rw [below, ← (electable.countable dir own).total_listed sorts few, map_entry_listed]
  · obtain ⟨_, written, unique⟩ := inner leaf
    refine ⟨pairs, written, unique, ?_, fun name => ?_, reports.fits⟩
    · exact fun name => (reports.listed name).trans (electable.mem_names_cast sorts name)
    · have congruent := reports.congruent name
      rw [electable.total_cast sorts] at congruent
      exact (fits_total unique reports.fits).eq_of_modEq (fits_int_iff.mpr (electable.few name))
        congruent

theorem Elected.votable (elected : Elected dir entries) (electable : Electable dir) {name : CStr}
    (member : name ∈ names entries) : Votable name :=
  electable.votable ((elected.listed name).mp member)

theorem lineText_getLast (items : List Item) (filled : items ≠ [])
    (counted : ∀ item ∈ items, item.digits ≠ []) :
    ∃ item ∈ items, (lineText items).getLast? = item.digits.getLast? := by
  cases items with
  | nil => exact absurd rfl filled
  | cons item rest =>
      induction rest generalizing item with
      | nil =>
          refine ⟨item, by simp, ?_⟩
          have some := counted item (by simp)
          simp [lineText, Item.text, some, List.getLast?_eq_some_getLast]
      | cons second rest ih =>
          obtain ⟨last, member, same⟩ := ih second (by simp) fun later held => counted later (by simp [held])
          refine ⟨last, List.mem_cons_of_mem _ member, ?_⟩
          have more : lineText (second :: rest) ≠ [] := lineText_ne_nil (by simp)
          rw [lineText_cons_cons, ← same, List.getLast?_append, List.getLast?_cons,
            List.getLast?_eq_some_getLast more]
          rfl

theorem trim_of_ends {text : CStr} (first : ∀ c, text.head? = some c → ¬ isspace c)
    (last : ∀ c, text.getLast? = some c → ¬ isspace c) : trim text = text := by
  by_cases empty : text = []
  · rw [empty]
    rfl
  · exact trim_eq_self_of_ends empty (first _ (List.head?_eq_some_head empty))
      (last _ (List.getLast?_eq_some_getLast empty))

theorem Votable.head_not_isspace {name : CStr} (votable : Votable name) {c : Char}
    (head : name.head? = some c) : ¬ isspace c := by
  obtain ⟨rest, rfl⟩ := List.head?_eq_some_iff.mp head
  intro blank
  have kept := trim_dropWhile (c :: rest)
  rw [votable.trimmed, List.dropWhile_cons_of_pos blank] at kept
  have shorter := (List.dropWhile_sublist isspace (l := rest)).length_le
  rw [kept, List.length_cons] at shorter
  omega

theorem decimal_getLast_not_isspace {count : Int} {c : Char} (last : (decimal count).getLast? = some c) :
    ¬ isspace c := by
  rcases isDigit_of_mem_decimal (List.mem_of_getLast? last) with rfl | digit
  · decide
  · exact not_isspace_of_isDigit digit

theorem lineText_trimmed (votable : ∀ name ∈ names entries, Votable name) :
    trim (lineText (printed entries)) = lineText (printed entries) := by
  cases entries with
  | nil => rfl
  | cons entry rest =>
      apply trim_of_ends
      · intro c head
        have named := votable entry.name (by simp)
        obtain ⟨d, name, same⟩ := List.exists_cons_of_ne_nil named.filled
        have front : (lineText (printed (entry :: rest))).head? = entry.name.head? := by
          simp [lineText, printed, Item.text, same]
        exact named.head_not_isspace (front ▸ head)
      · intro c last
        obtain ⟨item, held, same⟩ := lineText_getLast (printed (entry :: rest))
          (by simp [printed]) fun item member => by
            obtain ⟨other, _, rfl⟩ := List.mem_map.mp member
            exact decimal_ne_nil other.count
        obtain ⟨other, _, rfl⟩ := List.mem_map.mp held
        exact decimal_getLast_not_isspace (same ▸ last)

theorem legible_printed (votable : ∀ name ∈ names entries, Votable name) : Legible (printed entries) where
  printed := printed_printed fun name member => (votable name member).plain
  named := by
    intro item member
    obtain ⟨entry, held, rfl⟩ := List.mem_map.mp member
    exact (votable entry.name (List.mem_map_of_mem held)).filled
  unmarked := by
    intro item member found
    obtain ⟨entry, held, rfl⟩ := List.mem_map.mp member
    rcases Paths.infix_append_sep found (by decide : ':' ∉ cycleText) with named | number
    · exact (votable entry.name (List.mem_map_of_mem held)).unmarked named
    · have letter : 'T' ∈ decimal entry.count := number.subset (by decide)
      exact mem_decimal_ne letter (by decide) (by decide) rfl
  trimmed := lineText_trimmed votable

theorem votesBelow_ne_nil (electable : Electable dir) : votesBelow dir ≠ [] := by
  obtain ⟨leaf, member⟩ := List.exists_mem_of_ne_nil _ (leaves_ne_nil dir)
  obtain ⟨line, held⟩ := List.exists_mem_of_ne_nil _ (electable.countable leaf member).voted
  exact List.ne_nil_of_mem (List.mem_flatMap.mpr ⟨leaf, member, List.mem_map_of_mem held⟩)

/-- Who is announced for the result line has the most votes. -/
theorem Elected.winner (elected : Elected dir entries) (electable : Electable dir) :
    winnerOf (printed entries) ∈ votesBelow dir ∧ ∀ other,
      (votesBelow dir).count other ≤ (votesBelow dir).count (winnerOf (printed entries)) := by
  obtain ⟨name, voted⟩ := List.exists_mem_of_ne_nil _ (votesBelow_ne_nil electable)
  have positive : 0 < total entries name := by
    rw [elected.exact]
    exact_mod_cast List.count_pos_iff.mpr voted
  obtain ⟨above, largest⟩ := total_leader noWinner elected.unique rfl ⟨name, positive⟩
  rw [winnerOf, map_entry_printed elected.fits]
  simp only [elected.exact] at above largest
  exact ⟨List.count_pos_iff.mp (by exact_mod_cast above), fun other => by exact_mod_cast largest other⟩

theorem countable_firstWard : Countable "Al\nBo\n".toList :=
  ⟨by decide, by decide, by decide, by decide, by decide⟩

theorem countable_secondWard : Countable "Bo\n".toList :=
  ⟨by decide, by decide, by decide, by decide, by decide⟩

theorem electable_twoWards : Electable twoWards where
  present := by
    rw [leaves_twoWards, List.forall_mem_cons, List.forall_mem_singleton]
    exact ⟨Option.some_ne_none _, Option.some_ne_none _⟩
  countable := by
    rw [leaves_twoWards, List.forall_mem_cons, List.forall_mem_singleton]
    exact ⟨countable_firstWard, countable_secondWard⟩
  apart := by
    rw [directories_twoWards]
    simp only [List.forall_mem_cons, twoWards, ward, Directory.subdirs,
      Directory.name, List.not_mem_nil, false_imp_iff, implies_true, and_true]
    decide
  few name := by
    have short : (votesBelow twoWards).length = 3 := rfl
    have bound := List.count_le_length (a := name) (l := votesBelow twoWards)
    omega

/-- A cycle was reported before the results. -/
def wardFiles : Files := fun entry =>
  if entry = whoWonFile then some (cycleLine ['B'] ['A'] ++ "Al:1,Bo:2\n".toList) else none

end Totals

end VoteCounting.Programs
