import VoteCounting.Server.Structure

namespace VoteCounting.Server

open Counters CString

/-- The modulus of the `int` counts. -/
def intModulus : Nat := 2 ^ 32

theorem fits_atoi (text : CStr) : Fits intModulus (atoi text) := by
  have range := atoi_range text
  rw [Fits, intModulus]
  rw [Int.bmod_def]
  split <;> omega

/-- All items of a vote list, where each has a name and a count. -/
def parseVotes : List CStr → Except Fault (List Counter)
  | [] => .ok []
  | token :: rest => do
      let vote ← voteEntry token
      let votes ← parseVotes rest
      return vote :: votes

section Parsing

variable {token : CStr} {tokens : List CStr} {votes : List Counter} {vote : Counter}

theorem parseVotes_cons_ok (parsed : parseVotes (token :: tokens) = .ok votes) :
    ∃ vote rest, voteEntry token = .ok vote ∧ parseVotes tokens = .ok rest ∧ votes = vote :: rest := by
  obtain ⟨vote, first, parsed⟩ := bind_ok parsed
  obtain ⟨rest, remaining, parsed⟩ := bind_ok parsed
  cases parsed
  exact ⟨vote, rest, first, remaining, rfl⟩

theorem parseVotes_cons (first : voteEntry token = .ok vote) (rest : parseVotes tokens = .ok votes) :
    parseVotes (token :: tokens) = .ok (vote :: votes) := by
  rw [parseVotes, first, rest]
  rfl

theorem voteEntry_ok (parsed : voteEntry token = .ok vote) :
    ∃ count, arg (makeargv token ':') 0 = .ok vote.name ∧ arg (makeargv token ':') 1 = .ok count ∧
      vote.count = atoi count := by
  obtain ⟨name, named, parsed⟩ := bind_ok parsed
  obtain ⟨count, counted, parsed⟩ := bind_ok parsed
  cases parsed
  exact ⟨count, named, counted, rfl⟩

theorem fits_parseVotes (parsed : parseVotes tokens = .ok votes) :
    ∀ vote ∈ votes, Fits intModulus vote.count := by
  induction tokens generalizing votes with
  | nil => cases parsed; simp
  | cons token rest ih =>
      obtain ⟨vote, others, first, remaining, rfl⟩ := parseVotes_cons_ok parsed
      obtain ⟨count, _, _, same⟩ := voteEntry_ok first
      intro item member
      rcases List.mem_cons.mp member with rfl | member
      · rw [same]
        exact fits_atoi count
      · exact ih remaining item member

theorem listed_eq {input : CStr}
    (parsed : parseVotes (makeargv (trimwhitespace input) ',') = .ok votes) : listed input = votes := by
  rw [listed]
  generalize makeargv (trimwhitespace input) ',' = tokens at parsed
  induction tokens generalizing votes with
  | nil => cases parsed; rfl
  | cons token rest ih =>
      obtain ⟨vote, others, first, remaining, rfl⟩ := parseVotes_cons_ok parsed
      rw [List.filterMap_cons, first, ih remaining]
      rfl

end Parsing

section Adding

variable {modulus : Nat} {tokens : List CStr} {votes passed ahead : List Counter} {vote : Counter}
  {cursor after : Cursor} {name : CStr}

theorem addVote_entries :
    (addVote modulus passed ahead vote).entries =
      passed ++ credit modulus ahead vote.name vote.count := by
  induction ahead generalizing passed with
  | nil => simp [addVote, Cursor.entries, credit]
  | cons entry rest ih =>
      rw [addVote, credit]
      split
      · simp [Cursor.entries]
      · rw [ih]
        simp

def addAll (modulus : Nat) (votes : List Counter) (cursor : Cursor) : Cursor :=
  votes.foldl (fun cursor vote => addVote modulus cursor.passed cursor.ahead vote) cursor

theorem addTokens_ok (added : addTokens modulus tokens cursor = .ok after) :
    ∃ votes, parseVotes tokens = .ok votes ∧ after = addAll modulus votes cursor := by
  induction tokens generalizing cursor with
  | nil =>
      cases added
      exact ⟨[], rfl, rfl⟩
  | cons token rest ih =>
      obtain ⟨vote, first, added⟩ := bind_ok added
      obtain ⟨votes, remaining, same⟩ := ih added
      exact ⟨vote :: votes, parseVotes_cons first remaining, same⟩

theorem addTokens_of_parsed (parsed : parseVotes tokens = .ok votes) :
    addTokens modulus tokens cursor = .ok (addAll modulus votes cursor) := by
  induction tokens generalizing votes cursor with
  | nil => cases parsed; rfl
  | cons token rest ih =>
      obtain ⟨vote, others, first, remaining, rfl⟩ := parseVotes_cons_ok parsed
      rw [addTokens, first]
      exact ih remaining

theorem total_addAll_modEq :
    total (addAll modulus votes cursor).entries name ≡
      total cursor.entries name + total votes name [ZMOD modulus] := by
  induction votes generalizing cursor with
  | nil => simp [addAll, Int.ModEq.refl]
  | cons vote rest ih =>
      apply ih.trans
      rw [addVote_entries, total_append, total_cons, Cursor.entries, total_append, ← add_assoc]
      apply Int.ModEq.add_right _
      rw [add_assoc]
      exact total_credit_modEq.add_left _

theorem mem_names_addAll : name ∈ names (addAll modulus votes cursor).entries ↔
    name ∈ names cursor.entries ∨ name ∈ names votes := by
  induction votes generalizing cursor with
  | nil => simp [addAll]
  | cons vote rest ih =>
      apply ih.trans
      rw [addVote_entries, names_append, List.mem_append, mem_names_credit, names_cons,
        List.mem_cons, Cursor.entries, names_append, List.mem_append]
      tauto

theorem fits_addAll (fit : ∀ entry ∈ cursor.entries, Fits modulus entry.count)
    (votesFit : ∀ vote ∈ votes, Fits modulus vote.count) :
    ∀ entry ∈ (addAll modulus votes cursor).entries, Fits modulus entry.count := by
  induction votes generalizing cursor with
  | nil => exact fit
  | cons vote rest ih =>
      rw [addAll, List.foldl_cons, ← addAll]
      refine ih (fun entry member => ?_) fun later member => votesFit later (by simp [member])
      rw [addVote_entries] at member
      rcases List.mem_append.mp member with before | credited
      · exact fit entry (List.mem_append_left _ before)
      · exact fits_credit (fun held inside => fit held (List.mem_append_right _ inside))
          (votesFit vote (by simp)) entry credited

end Adding

section Removing

variable {modulus : Nat} {tokens : List CStr} {votes entries after : List Counter} {vote : Counter}
  {stopped : Option CStr} {name : CStr}

/-- The list has the candidate, with at least this count. -/
def Covers (entries : List Counter) (vote : Counter) : Prop :=
  ∃ count, firstCount entries vote.name = some count ∧ vote.count ≤ count

/-- The first pass finds nothing wrong exactly where each item on its own is covered. -/
theorem shortNames_nil_iff : shortNames entries tokens = .ok [] ↔
    ∃ votes, parseVotes tokens = .ok votes ∧ ∀ vote ∈ votes, Covers entries vote := by
  induction tokens with
  | nil => simp [shortNames, parseVotes]
  | cons token rest ih =>
      constructor
      · intro checked
        obtain ⟨name, named, checked⟩ := bind_ok checked
        obtain ⟨short, tested, checked⟩ := bind_ok checked
        obtain ⟨names, remaining, checked⟩ := bind_ok checked
        cases short with
        | true => cases checked
        | false =>
            cases checked
            obtain ⟨votes, parsed, covered⟩ := ih.mp remaining
            cases found : firstCount entries name with
            | none => simp [tooFew, found] at tested
            | some count =>
                simp only [tooFew, found] at tested
                obtain ⟨amount, present, tested⟩ := bind_ok tested
                have enough : atoi amount ≤ count := by
                  cases less : decide (count < atoi amount) with
                  | true => rw [less] at tested; cases tested
                  | false => simpa using less
                have first : voteEntry token = .ok ⟨name, atoi amount⟩ := by
                  rw [voteEntry, named, present]
                  rfl
                refine ⟨_, parseVotes_cons first parsed, ?_⟩
                intro vote member
                rcases List.mem_cons.mp member with rfl | member
                · exact ⟨count, found, enough⟩
                · exact covered vote member
      · intro parses
        obtain ⟨votes, parsed, covered⟩ := parses
        obtain ⟨vote, others, first, remaining, rfl⟩ := parseVotes_cons_ok parsed
        obtain ⟨amount, named, present, same⟩ := voteEntry_ok first
        obtain ⟨count, found, enough⟩ := covered vote (by simp)
        have later := ih.mpr ⟨others, remaining, fun item member => covered item (by simp [member])⟩
        have notShort : decide (count < atoi amount) = false := by
          rw [← same]
          simpa using enough
        simp only [shortNames, tooFew, named, found, present, later, bind, Except.bind, notShort]
        rfl

/-- The second pass on parsed items, for candidates the list has. -/
def removeAll (modulus : Nat) : List Counter → List Counter → List Counter × Option CStr
  | [], entries => (entries, none)
  | vote :: rest, entries =>
      if (firstCount entries vote.name).getD 0 < vote.count then (entries, some vote.name)
      else removeAll modulus rest (debit modulus entries vote.name vote.count)

theorem removeTokens_of_parsed (parsed : parseVotes tokens = .ok votes)
    (present : ∀ vote ∈ votes, vote.name ∈ names entries) :
    removeTokens modulus tokens entries = .ok (removeAll modulus votes entries) := by
  induction tokens generalizing votes entries with
  | nil => cases parsed; rfl
  | cons token rest ih =>
      obtain ⟨vote, others, first, remaining, rfl⟩ := parseVotes_cons_ok parsed
      obtain ⟨count, found⟩ := Option.isSome_iff_exists.mp
        (firstCount_isSome.mpr (present vote (by simp)))
      have later : removeTokens modulus rest (debit modulus entries vote.name vote.count) =
          .ok (removeAll modulus others (debit modulus entries vote.name vote.count)) :=
        ih remaining fun item member => by simpa using present item (by simp [member])
      simp only [removeTokens, first, removeAll, countFound, debitFound, found, Option.getD_some,
        bind, Except.bind, later]
      split <;> rfl

theorem Covers.mem_names (covered : Covers entries vote) : vote.name ∈ names entries := by
  obtain ⟨count, found, _⟩ := covered
  exact firstCount_isSome.mp (by rw [found]; rfl)

/-- Where the first pass finds nothing wrong, the second one works on the parsed items. -/
theorem removal_of_checked {result : List Counter × Option CStr}
    (checked : shortNames entries tokens = .ok [])
    (removed : removeTokens modulus tokens entries = .ok result) :
    ∃ votes, parseVotes tokens = .ok votes ∧ (∀ vote ∈ votes, Covers entries vote) ∧
      result = removeAll modulus votes entries := by
  obtain ⟨votes, parsed, covered⟩ := shortNames_nil_iff.mp checked
  rw [removeTokens_of_parsed parsed fun vote member => (covered vote member).mem_names] at removed
  exact ⟨votes, parsed, covered, (Except.ok.inj removed).symm⟩

theorem names_removeAll : names (removeAll modulus votes entries).1 = names entries := by
  induction votes generalizing entries with
  | nil => rfl
  | cons vote rest ih =>
      rw [removeAll]
      split
      · rfl
      · rw [ih, names_debit]

theorem fits_removeAll (fit : ∀ entry ∈ entries, Fits modulus entry.count) :
    ∀ entry ∈ (removeAll modulus votes entries).1, Fits modulus entry.count := by
  induction votes generalizing entries with
  | nil => exact fit
  | cons vote rest ih =>
      rw [removeAll]
      split
      · exact fit
      · exact ih (fits_debit fit)

/-- What is left for an item once the items before it have been subtracted. -/
def remaining (modulus : Nat) (entries before : List Counter) (name : CStr) : Int :=
  ((firstCount entries name).getD 0 - total before name).bmod modulus

/-- Every item finds enough votes after the items before it. -/
def EnoughInTurn (modulus : Nat) (entries votes : List Counter) : Prop :=
  ∀ before vote rest, votes = before ++ vote :: rest →
    vote.count ≤ remaining modulus entries before vote.name

theorem remaining_nil (fit : ∀ entry ∈ entries, Fits modulus entry.count) :
    remaining modulus entries [] name = (firstCount entries name).getD 0 := by
  cases found : firstCount entries name with
  | none => simp [remaining, found]
  | some count =>
      obtain ⟨entry, member, rfl⟩ := mem_of_firstCount found
      have kept : entry.count.bmod modulus = entry.count := fit entry member
      simpa [remaining, found] using kept

theorem remaining_debit (present : vote.name ∈ names entries) (before : List Counter) :
    remaining modulus (debit modulus entries vote.name vote.count) before name =
      remaining modulus entries (vote :: before) name := by
  unfold remaining
  rw [firstCount_debit, total_cons]
  by_cases same : vote.name = name
  · subst same
    obtain ⟨count, found⟩ := Option.isSome_iff_exists.mp (firstCount_isSome.mpr present)
    simp only [found, ↓reduceIte, Option.map_some, Option.getD_some, Int.bmod_sub_bmod]
    rw [sub_sub]
  · simp [same]

theorem enoughInTurn_cons (present : vote.name ∈ names entries) :
    EnoughInTurn modulus entries (vote :: votes) ↔ vote.count ≤ remaining modulus entries [] vote.name ∧
      EnoughInTurn modulus (debit modulus entries vote.name vote.count) votes := by
  constructor
  · intro enough
    refine ⟨enough [] vote votes rfl, fun before item after whole => ?_⟩
    rw [remaining_debit present]
    exact enough (vote :: before) item after (by simp [whole])
  · intro ⟨first, later⟩ before item after whole
    cases before with
    | nil =>
        cases whole
        exact first
    | cons head before =>
        simp only [List.cons_append, List.cons.injEq] at whole
        obtain ⟨rfl, whole⟩ := whole
        rw [← remaining_debit present]
        exact later before item after whole

theorem removeAll_stop_iff (fit : ∀ entry ∈ entries, Fits modulus entry.count)
    (present : ∀ vote ∈ votes, vote.name ∈ names entries) :
    (removeAll modulus votes entries).2 = none ↔ EnoughInTurn modulus entries votes := by
  induction votes generalizing entries with
  | nil => simp [removeAll, EnoughInTurn]
  | cons vote rest ih =>
      have later : (removeAll modulus rest (debit modulus entries vote.name vote.count)).2 = none ↔
          EnoughInTurn modulus (debit modulus entries vote.name vote.count) rest :=
        ih (fits_debit fit) fun item member => by simpa using present item (by simp [member])
      rw [removeAll, ← remaining_nil fit, enoughInTurn_cons (present vote (by simp)), ← later]
      split
      · rename_i short
        simp [Int.not_le.mpr short]
      · rename_i enough
        simp [Int.not_lt.mp enough]

/-- A second pass that stops has changed the count it stops at. -/
theorem removeAll_changes (covered : ∀ vote ∈ votes, Covers entries vote)
    (stopped : (removeAll modulus votes entries).2 = some name) :
    (removeAll modulus votes entries).1 ≠ entries := by
  have stops : ∀ votes held, (removeAll modulus votes held).2 = some name →
      ∃ vote ∈ votes, (firstCount (removeAll modulus votes held).1 vote.name).getD 0 < vote.count := by
    intro votes
    induction votes with
    | nil => intro held done; cases done
    | cons vote rest ih =>
        intro held done
        rw [removeAll] at done ⊢
        split at done
        · rename_i short
          rw [if_pos short]
          exact ⟨vote, by simp, short⟩
        · rename_i enough
          rw [if_neg enough]
          obtain ⟨item, member, short⟩ := ih _ done
          exact ⟨item, by simp [member], short⟩
  intro same
  obtain ⟨vote, member, short⟩ := stops votes entries stopped
  obtain ⟨count, found, enough⟩ := covered vote member
  rw [same, found, Option.getD_some] at short
  exact absurd enough (Int.not_le.mpr short)

theorem removeAll_eq (done : (removeAll modulus votes entries).2 = none) :
    (removeAll modulus votes entries).1 =
      votes.foldl (fun entries vote => debit modulus entries vote.name vote.count) entries := by
  induction votes generalizing entries with
  | nil => rfl
  | cons vote rest ih =>
      rw [removeAll] at done ⊢
      split at done
      · cases done
      · rename_i enough
        rw [if_neg enough]
        exact ih done

end Removing

/-- All counts are values of the arithmetic in use. -/
def CountsFit (modulus : Nat) (table : Table) : Prop :=
  ∀ i, ∀ entry ∈ (table.node i).rootCounter, Fits modulus entry.count

section Fitting

variable {modulus fuel : Nat} {table after : Table} {region child : Nat} {str : CStr}
  {answer : List Response}

theorem fits_foldl_copyCounter {entries : List Counter} {parent : Node}
    (fit : ∀ entry ∈ parent.rootCounter, Fits modulus entry.count)
    (entriesFit : ∀ entry ∈ entries, Fits modulus entry.count) :
    ∀ entry ∈ (entries.foldl (copyCounter modulus) parent).rootCounter, Fits modulus entry.count := by
  induction entries generalizing parent with
  | nil => exact fit
  | cons entry rest ih =>
      have first :
          ∀ held ∈ (copyCounter modulus parent entry).rootCounter, Fits modulus held.count := by
        rw [copyCounter]
        split
        · exact fits_credit fit (entriesFit entry (by simp))
        · simpa using entriesFit entry (by simp)
      exact ih first fun later member => entriesFit later (by simp [member])

theorem CountsFit.modify {change : Node → Node} (fit : CountsFit modulus table)
    (changed : ∀ entry ∈ (change (table.node region)).rootCounter, Fits modulus entry.count) :
    CountsFit modulus (table.modify region change) :=
  Table.forall_node_modify (P := fun node => ∀ entry ∈ node.rootCounter, Fits modulus entry.count)
    fit changed

theorem CountsFit.mergeChild (fit : CountsFit modulus table) :
    CountsFit modulus (mergeChild modulus table region child) :=
  fit.modify (fits_foldl_copyCounter (fit region) (fit child))

theorem CountsFit.congr (fit : CountsFit modulus table)
    (same : ∀ i, (after.node i).rootCounter = (table.node i).rootCounter) : CountsFit modulus after :=
  fun i => by rw [same]; exact fit i

theorem CountsFit.step (fit : CountsFit intModulus table)
    (step : Step intModulus table str answer after) : CountsFit intModulus after := by
  cases step with
  | refused _ => exact fit
  | polls _ _ _ _ done => exact fit.congr fun i => ((visitPolls_visited done).node i).rootCounter
  | votesAdded _ _ _ _ added =>
      obtain ⟨votes, parsed, rfl⟩ := addTokens_ok added
      exact fit.modify (fits_addAll (fit _) (fits_parseVotes parsed))
  | votesRemoved _ _ _ _ checked removed =>
      obtain ⟨votes, parsed, covered, result⟩ := removal_of_checked checked removed
      obtain rfl := congrArg Prod.fst result
      exact fit.modify (fits_removeAll (fit _))
  | @regionAdded parent childname _ _ _ =>
      intro i
      by_cases new : i = table.size
      · rw [new, addChild_node_new]
        simp [create]
      · rw [addChild_proj Node.rootCounter (fun _ _ => rfl) new]
        exact fit i
  | votesRead => exact fit
  | votesCounted _ _ _ counted =>
      exact aggregate_keeps (CountsFit intModulus) (fun _ _ fit => fit.mergeChild) fit counted
  | won _ _ _ counted =>
      exact aggregate_keeps (CountsFit intModulus) (fun _ _ fit => fit.mergeChild) fit counted

theorem Served.countsFit {file : CStr} {history : List Answered}
    (served : Served intModulus file history table) : CountsFit intModulus table := by
  obtain ⟨start, created, run⟩ := served
  have initial := createDAG_initial created
  have reached : WellFormed table ∧ CountsFit intModulus table := by
    refine Run.invariant_state (fun table => WellFormed table ∧ CountsFit intModulus table)
      ⟨initial.wellFormed, fun i => by simp [(initial.untouched i).rootCounter]⟩ ?_ run
    intro state input output after ⟨wellFormed, fit⟩ answered
    exact ⟨wellFormed.step answered, fit.step (dispatchCode_step wellFormed.nonempty answered)⟩
  exact reached.2

end Fitting

end VoteCounting.Server
