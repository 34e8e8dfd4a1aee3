import VoteCounting.Threads.Aggregate

namespace VoteCounting.Threads

open Counters CString

/-- The entries are the candidates with votes, once each, with the number of their votes. -/
structure Reports (entries : List Count) (votes : Char → Nat) : Prop where
  unique : (names entries).Nodup
  listed : ∀ name, name ∈ names entries ↔ ∃ candidate, name = [candidate] ∧ 0 < votes candidate
  exact : ∀ candidate, total entries [candidate] = votes candidate

/-- Numbers of votes that are an `int`, for candidates that fit on a line. -/
structure Countable (votes : Char → Nat) : Prop where
  few : ∀ candidate, votes candidate < 2 ^ 31
  noNewline : votes '\n' = 0

section Counting

variable {counters : List Count} {name other : CStr} {votes : List Char} {lines : List CStr}

theorem increment_eq_credit (unique : (names counters).Nodup) :
    increment counters name = credit (2 ^ 32) counters name 1 := by
  rw [increment]
  induction counters with
  | nil => rfl
  | cons entry rest ih =>
      simp only [names_cons, List.nodup_cons] at unique
      rw [credit]
      by_cases same : entry.name = name
      · have others : rest.map (fun entry => if entry.name = name then
            { entry with count := toInt (entry.count + 1) } else entry) = rest := by
          conv_rhs => rw [← List.map_id rest]
          apply List.map_congr_left
          intro later member
          have different : later.name ≠ name := fun alsoSame =>
            unique.1 ((same.trans alsoSame.symm) ▸ List.mem_map_of_mem member)
          rw [if_neg different]
          rfl
        simp only [names_cons, same, List.mem_cons_self, if_true, List.map_cons, others]
        rfl
      · rw [if_neg same, ← ih unique.2]
        simp only [names_cons, List.mem_cons, Ne.symm same, false_or, List.map_cons, if_neg same]
        split <;> rfl

def countVotes (counters : List Count) (votes : List Char) : List Count :=
  votes.foldl (fun counters candidate => credit (2 ^ 32) counters [candidate] 1) counters

theorem countVotes_eq :
    countVotes counters votes = creditAll (2 ^ 32) counters
      (units (votes.map fun candidate => [candidate])) := by
  rw [countVotes, units, List.map_map, creditAll, List.foldl_map]
  rfl

theorem foldl_increment (unique : (names counters).Nodup) :
    lines.foldl increment counters = creditAll (2 ^ 32) counters (units lines) := by
  induction lines generalizing counters with
  | nil => rfl
  | cons name rest ih =>
      rw [List.foldl_cons, increment_eq_credit unique, ih (nodup_credit unique)]
      rfl

/-- Lines of one byte are counted, and no others. -/
theorem countFile_lines (free : ∀ line ∈ lines, '\n' ∉ line) (unique : (names counters).Nodup) :
    countFile counters (lines.flatMap fun line => line ++ ['\n']) =
      creditAll (2 ^ 32) counters (units (lines.filter fun line => line.length = 1)) := by
  have read : getlines (lines.flatMap fun line => line ++ ['\n']) = lines.map fun line =>
      line ++ ['\n'] :=
    getlines_flatMap (fun line => line) lines free
  rw [countFile, read, List.foldl_map, ← foldl_increment unique, List.foldl_filter]
  congr 1
  funext counters line
  rw [trimlastenter_line]
  simp

theorem countFile_ballotText (noNewline : '\n' ∉ votes) (unique : (names counters).Nodup) :
    countFile counters (ballotText votes) = countVotes counters votes := by
  have text : ballotText votes =
      (votes.map fun candidate => [candidate]).flatMap fun line => line ++ ['\n'] := by
    rw [ballotText, List.flatMap_map]
    rfl
  have free : ∀ line ∈ votes.map fun candidate => [candidate], '\n' ∉ line := by
    intro line member
    obtain ⟨candidate, held, rfl⟩ := List.mem_map.mp member
    exact fun inside => noNewline (List.mem_singleton.mp inside ▸ held)
  have single : (votes.map fun candidate => [candidate]).filter (fun line => line.length = 1) =
      votes.map fun candidate => [candidate] := by
    rw [List.filter_eq_self]
    simp
  rw [text, countFile_lines free unique, single, countVotes_eq]

theorem countVotes_nodup : (names (countVotes [] votes)).Nodup := by
  rw [countVotes_eq]
  exact nodup_creditAll List.nodup_nil

theorem countVotes_fits : ∀ entry ∈ countVotes [] votes, Fits (2 ^ 32) entry.count := by
  rw [countVotes_eq]
  exact fits_creditAll (by simp) (fits_units (by decide))

theorem mem_names_countVotes :
    name ∈ names (countVotes [] votes) ↔ ∃ candidate ∈ votes, name = [candidate] := by
  rw [countVotes_eq, mem_names_creditAll, names_units]
  simp [eq_comm]

theorem total_countVotes_modEq (candidate : Char) :
    total (countVotes [] votes) [candidate] ≡ votes.count candidate [ZMOD (2 ^ 32 : Nat)] := by
  have sum : total (countVotes [] votes) [candidate] ≡
      total [] [candidate] + total (units (votes.map fun candidate => [candidate])) [candidate]
        [ZMOD (2 ^ 32 : Nat)] := by
    rw [countVotes_eq]
    exact total_creditAll_modEq
  have injective : Function.Injective fun candidate : Char => [candidate] := List.singleton_injective
  rw [total_nil, zero_add, total_units, List.count_map_of_injective _ _ injective] at sum
  exact sum

theorem countVotes_reports (few : ∀ candidate, votes.count candidate < 2 ^ 31) :
    Reports (countVotes [] votes) fun candidate => votes.count candidate where
  unique := countVotes_nodup
  listed name := by
    rw [mem_names_countVotes]
    simp only [List.count_pos_iff, and_comm]
  exact candidate := (fits_total countVotes_nodup countVotes_fits).eq_of_modEq
    (fits_int_iff.mpr (few candidate)) (total_countVotes_modEq candidate)

end Counting

section Reading

variable {entries counters merged : List Count} {votes more : Char → Nat} {entry : Count}

theorem Reports.name_eq (reports : Reports entries votes) (member : entry ∈ entries) :
    ∃ candidate, entry.name = [candidate] ∧ 0 < votes candidate :=
  (reports.listed entry.name).mp (List.mem_map_of_mem member)

theorem Reports.count_eq (reports : Reports entries votes) (member : entry ∈ entries) {candidate : Char}
    (name : entry.name = [candidate]) : entry.count = votes candidate := by
  rw [← reports.exact candidate, ← name, total_of_mem reports.unique member]

theorem Reports.noNewline (reports : Reports entries votes) (countable : Countable votes) :
    ∀ entry ∈ entries, '\n' ∉ entry.name := by
  intro entry member newline
  obtain ⟨candidate, name, positive⟩ := reports.name_eq member
  rw [name] at newline
  obtain rfl := List.mem_singleton.mp newline
  have none := countable.noNewline
  omega

theorem getlines_countText (free : ∀ entry ∈ entries, '\n' ∉ entry.name) :
    getlines (countText entries) = entries.map countLine := by
  refine getlines_flatMap (fun entry => entry.name ++ ':' :: decimal entry.count) entries ?_
  intro entry member newline
  rcases List.mem_append.mp newline with own | rest
  · exact free entry member own
  · rcases List.mem_cons.mp rest with colon | digits
    · cases colon
    · exact mem_decimal_ne digits (by decide) (by decide) rfl

/-- The lines of a count file have a colon and a digit besides the newline. -/
theorem countFile_countText (free : ∀ entry ∈ entries, '\n' ∉ entry.name) :
    countFile counters (countText entries) = counters := by
  have longer : ∀ line ∈ entries.map countLine, line.length ≠ 2 := by
    intro line member
    obtain ⟨entry, _, rfl⟩ := List.mem_map.mp member
    have digits := List.length_pos_of_ne_nil (decimal_ne_nil entry.count)
    simp only [countLine, List.length_append, List.length_cons, List.length_nil]
    omega
  rw [countFile, getlines_countText free]
  generalize entries.map countLine = lines at longer
  induction lines with
  | nil => rfl
  | cons line rest ih =>
      rw [List.foldl_cons, if_neg (longer line List.mem_cons_self)]
      exact ih fun other member => longer other (List.mem_cons_of_mem _ member)

def addCount (counters : List Count) (entry : Count) : Count :=
  ⟨entry.name, toInt (entry.count + total counters entry.name)⟩

theorem total_of_find (unique : (names counters).Nodup) {name : CStr} :
    total counters name = ((counters.find? fun entry => entry.name = name).map Entry.count).getD 0 := by
  cases found : counters.find? fun entry => entry.name = name with
  | none =>
      apply total_of_absent
      intro member
      obtain ⟨entry, held, same⟩ := List.mem_map.mp member
      simpa [same] using List.find?_eq_none.mp found entry held
  | some entry =>
      have same : entry.name = name := by simpa using List.find?_some found
      rw [← same, total_of_mem unique (List.mem_of_find?_eq_some found)]
      rfl

theorem mergeLine_countLine (unique : (names counters).Nodup) {candidate : Char}
    (name : entry.name = [candidate]) (lower : -2 ^ 31 ≤ entry.count) (upper : entry.count < 2 ^ 31)
    {result : Count} (made : mergeLine counters (countLine entry) = some result) :
    result = addCount counters entry := by
  have digits : ':' ∉ decimal entry.count := fun member =>
    mem_decimal_ne member (by decide) (by decide) rfl
  have line : trimlastenter (countLine entry) = [candidate] ++ ':' :: decimal entry.count := by
    rw [countLine, trimlastenter_line, name]
  by_cases colon : candidate = ':'
  · subst colon
    have words : makeargv ([':'] ++ ':' :: decimal entry.count) ':' = [decimal entry.count] := by
      show tokens ':' ([] ++ ':' :: ([] ++ ':' :: decimal entry.count)) = _
      rw [tokens_append_delim, tokens_append_delim, tokens_nil, tokens_word digits (decimal_ne_nil _)]
      rfl
    simp only [mergeLine, line, words, List.getElem?_cons_zero, List.getElem?_cons_succ,
      List.getElem?_nil] at made
    cases made
  · have words : makeargv ([candidate] ++ ':' :: decimal entry.count) ':' =
        [[candidate], decimal entry.count] := by
      rw [makeargv, tokens_word_delim (by simp [Ne.symm colon]) (by simp),
        tokens_word digits (decimal_ne_nil _)]
    have brought : total counters [candidate] = _ := total_of_find unique
    simp only [mergeLine, line, words, List.getElem?_cons_zero, List.getElem?_cons_succ,
      Option.bind_eq_bind, Option.bind_some, atoi_decimal lower upper] at made
    rw [addCount, name]
    split at made
    · rename_i held found
      obtain rfl := Option.some.inj made
      have same : held.name = [candidate] := by simpa using List.find?_some found
      rw [brought, found, ← same]
      rfl
    · rename_i missing
      obtain rfl := Option.some.inj made
      rw [brought, missing]
      simp [toInt_of_range lower upper]

theorem mapM_some {α β : Type} {f : α → Option β} {g : α → β} {items : List α} {results : List β}
    (made : items.mapM f = some results)
    (same : ∀ item ∈ items, ∀ result, f item = some result → result = g item) :
    results = items.map g := by
  induction items generalizing results with
  | nil =>
      cases made
      rfl
  | cons item rest ih =>
      rw [List.mapM_cons] at made
      obtain ⟨first, found, made⟩ := Option.bind_eq_some_iff.mp made
      obtain ⟨others, remaining, made⟩ := Option.bind_eq_some_iff.mp made
      cases made
      rw [List.map_cons, same item List.mem_cons_self first found,
        ih remaining fun later member => same later (List.mem_cons_of_mem _ member)]

theorem Reports.mergeFile_countText (reports : Reports entries votes) (countable : Countable votes)
    (unique : (names counters).Nodup) (made : mergeFile counters (countText entries) = some merged) :
    merged = entries.map (addCount counters) := by
  rw [mergeFile, getlines_countText (reports.noNewline countable), List.mapM_map] at made
  apply mapM_some made
  intro entry member result found
  obtain ⟨candidate, name, _⟩ := reports.name_eq member
  have count := reports.count_eq member name
  have few := countable.few candidate
  exact mergeLine_countLine unique name (by omega) (by omega) found

theorem names_addCount : names (entries.map (addCount counters)) = names entries := by
  simp [names, addCount]

/-- The updated file reports both, if it listed the candidates before. -/
theorem Reports.updated (reports : Reports entries votes) (brought : Reports counters more)
    (listed : ∀ candidate, 0 < more candidate → 0 < votes candidate)
    (few : ∀ candidate, votes candidate + more candidate < 2 ^ 31) :
    Reports (entries.map (addCount counters)) fun candidate => votes candidate + more candidate where
  unique := by rw [names_addCount]; exact reports.unique
  listed name := by
    rw [names_addCount, reports.listed]
    constructor
    · intro ⟨candidate, same, positive⟩
      exact ⟨candidate, same, by omega⟩
    · intro ⟨candidate, same, positive⟩
      refine ⟨candidate, same, ?_⟩
      have known := listed candidate
      omega
  exact candidate := by
    by_cases present : [candidate] ∈ names entries
    · obtain ⟨entry, member, name⟩ := List.mem_map.mp present
      have unique : (names (entries.map (addCount counters))).Nodup := by
        rw [names_addCount]
        exact reports.unique
      have own := total_of_mem unique (List.mem_map_of_mem (f := addCount counters) member)
      have count := reports.count_eq member name
      have bound := few candidate
      rw [show (addCount counters entry).name = [candidate] from name] at own
      rw [own]
      show toInt (entry.count + total counters entry.name) = _
      rw [name, brought.exact, count, toInt_of_range (by omega) (by omega)]
      push_cast
      rfl
    · have absent : votes candidate = 0 := by
        by_contra some
        exact present ((reports.listed _).mpr ⟨candidate, rfl, by omega⟩)
      have none : more candidate = 0 := by
        have known := listed candidate
        omega
      rw [total_of_absent (by rw [names_addCount]; exact present), absent, none]
      rfl

end Reading

end VoteCounting.Threads
