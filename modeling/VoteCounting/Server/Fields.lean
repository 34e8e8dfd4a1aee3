import VoteCounting.Server.Counts

namespace VoteCounting.Server

open Counters CString

/-- The computation finishes. -/
def Finishes {α : Type} (result : Except Fault α) : Prop := ∃ value, result = .ok value

/-- The computation fails only at a null pointer. -/
def OnlyNull {α : Type} (result : Except Fault α) : Prop :=
  ∀ fault, result = .error fault → fault = .nullPointer

/-- An item of a vote list that has a name and a count. -/
def Complete (token : CStr) : Prop := 2 ≤ (makeargv token ':').length

/-- The fields a request needs: the region, then the vote list or the new name.  A vote list
is read only for a region that accepts votes, and `Remove_Votes` reads the count of an item
only where the region lists its name. -/
def FieldsPresent (table : Table) (str : CStr) : Prop :=
  match command (trimlastenter str) with
  | .returnWinner | .invalid => True
  | .countVotes | .openPolls | .closePolls => 2 ≤ (argvpOf str).length
  | .addRegion => 3 ≤ (argvpOf str).length
  | .addVotes => 3 ≤ (argvpOf str).length ∧
      ∀ region input, table.Names (argvpOf str) 1 region → (argvpOf str)[2]? = some input →
        Voting table region → ∀ token ∈ makeargv (trimwhitespace input) ',', Complete token
  | .removeVotes => 3 ≤ (argvpOf str).length ∧
      ∀ region input, table.Names (argvpOf str) 1 region → (argvpOf str)[2]? = some input →
        Voting table region → ∀ token ∈ makeargv (trimwhitespace input) ',',
          ∃ name, (makeargv token ':')[0]? = some name ∧
            (name ∈ names (table.node region).rootCounter → Complete token)

section Finishing

variable {α β : Type} {modulus : Nat} {table : Table} {str : CStr} {argvp tokens : List CStr}
  {region : Nat}

theorem finishes_ok (value : α) : Finishes (.ok value : Except Fault α) := ⟨value, rfl⟩

theorem finishes_bind {first : Except Fault α} {next : α → Except Fault β} :
    Finishes (first >>= next) ↔ ∃ value, first = .ok value ∧ Finishes (next value) := by
  constructor
  · intro ⟨result, done⟩
    obtain ⟨value, ran, done⟩ := bind_ok done
    exact ⟨value, ran, result, done⟩
  · rintro ⟨value, rfl, done⟩
    exact done

theorem arg_eq_ok {k : Nat} {field : CStr} : arg argvp k = .ok field ↔ argvp[k]? = some field :=
  ⟨arg_ok, fun present => by rw [arg, present]⟩

theorem finishes_arg_bind {k : Nat} {next : CStr → Except Fault β} :
    Finishes (arg argvp k >>= next) ↔ ∃ field, argvp[k]? = some field ∧ Finishes (next field) := by
  simp only [finishes_bind, arg_eq_ok]

theorem finishes_voteEntry {token : CStr} : Finishes (voteEntry token) ↔ Complete token := by
  rw [voteEntry, Complete]
  simp only [finishes_arg_bind, List.getElem?_eq_some_iff]
  constructor
  · intro read
    obtain ⟨_, _, _, ⟨inside, _⟩, _⟩ := read
    exact inside
  · intro both
    exact ⟨_, ⟨by omega, rfl⟩, _, ⟨by omega, rfl⟩, finishes_ok _⟩

theorem finishes_addTokens {cursor : Cursor} :
    Finishes (addTokens modulus tokens cursor) ↔ ∀ token ∈ tokens, Complete token := by
  induction tokens generalizing cursor with
  | nil => simp [addTokens, finishes_ok]
  | cons token rest ih =>
      simp only [addTokens, finishes_bind, ih, List.forall_mem_cons, ← finishes_voteEntry,
        exists_and_right]
      rfl

theorem finishes_tooFew {entries : List Counter} {token name : CStr} :
    Finishes (tooFew entries token name) ↔
      (name ∈ names entries → 2 ≤ (makeargv token ':').length) := by
  rw [tooFew, ← firstCount_isSome]
  cases firstCount entries name with
  | none => simp [finishes_ok]
  | some count =>
      simp only [finishes_arg_bind, Option.isSome_some, forall_const]
      constructor
      · intro read
        obtain ⟨_, present, _⟩ := read
        exact (List.getElem?_eq_some_iff.mp present).1
      · exact fun both => ⟨_, List.getElem?_eq_getElem both, finishes_ok _⟩

theorem finishes_shortNames {entries : List Counter} :
    Finishes (shortNames entries tokens) ↔ ∀ token ∈ tokens, ∃ name,
      (makeargv token ':')[0]? = some name ∧ (name ∈ names entries → Complete token) := by
  induction tokens with
  | nil => simp [shortNames, finishes_ok]
  | cons token rest ih =>
      rw [shortNames, finishes_arg_bind, List.forall_mem_cons]
      constructor
      · intro named
        obtain ⟨name, present, done⟩ := named
        obtain ⟨short, tested, done⟩ := finishes_bind.mp done
        obtain ⟨others, later, _⟩ := finishes_bind.mp done
        exact ⟨⟨name, present, finishes_tooFew.mp ⟨short, tested⟩⟩, ih.mp ⟨others, later⟩⟩
      · intro fields
        obtain ⟨⟨name, present, complete⟩, later⟩ := fields
        obtain ⟨short, tested⟩ := finishes_tooFew.mpr complete
        obtain ⟨others, done⟩ := ih.mpr later
        exact ⟨name, present, finishes_bind.mpr
          ⟨short, tested, finishes_bind.mpr ⟨others, done, finishes_ok _⟩⟩⟩

theorem aggregate_finishes (modulus : Nat) (wellFormed : WellFormed table) (region : Nat) :
    ∃ after, aggregate modulus table.size table region = some after :=
  aggregate_total modulus wellFormed.forest ⟨by omega, wellFormed.nonempty⟩

theorem returnWinner_finishes (wellFormed : WellFormed table) :
    Finishes (returnWinner modulus table) := by
  have first : table.nodes.head? = some (table.node 0) := by
    rw [List.head?_eq_getElem?, List.getElem?_eq_getElem wellFormed.nonempty,
      Table.node_eq_getElem wellFormed.nonempty]
  obtain ⟨after, counted⟩ := aggregate_finishes modulus wellFormed 0
  simp only [returnWinner, first, lookup_root wellFormed.nonempty, counted]
  split
  · exact finishes_ok _
  · split <;> exact finishes_ok _

theorem countVotes_finishes (wellFormed : WellFormed table) :
    Finishes (countVotes modulus table argvp) ↔ 2 ≤ argvp.length := by
  rw [countVotes, finishes_arg_bind]
  constructor
  · intro ⟨_, present, _⟩
    exact (List.getElem?_eq_some_iff.mp present).1
  · intro enough
    refine ⟨_, List.getElem?_eq_getElem enough, ?_⟩
    cases found : table.lookup (trimwhitespace argvp[1]) with
    | none => exact finishes_ok _
    | some i =>
        obtain ⟨after, counted⟩ := aggregate_finishes modulus wellFormed i
        simp only [counted]
        split
        · exact finishes_ok _
        · split <;> exact finishes_ok _

theorem answerPolls_finishes {rule : PollRule} {already notReady : CStr → Response} :
    Finishes (answerPolls table argvp (visitPolls rule) already notReady) ↔ 2 ≤ argvp.length := by
  rw [answerPolls, finishes_arg_bind]
  constructor
  · intro ⟨_, present, _⟩
    exact (List.getElem?_eq_some_iff.mp present).1
  · intro enough
    refine ⟨_, List.getElem?_eq_getElem enough, ?_⟩
    obtain ⟨f, after, visited⟩ := visitPolls_total rule table (.field argvp[1])
    simp only [visited]
    split
    · exact finishes_ok _
    · repeat' split
      all_goals exact finishes_ok _

theorem addRegion_finishes : Finishes (addRegion table argvp) ↔ 3 ≤ argvp.length := by
  simp only [addRegion, finishes_arg_bind, List.getElem?_eq_some_iff]
  constructor
  · intro ⟨_, _, _, ⟨inside, _⟩, _⟩
    exact inside
  · intro enough
    refine ⟨_, ⟨by omega, rfl⟩, _, ⟨enough, rfl⟩, ?_⟩
    split <;> exact finishes_ok _

theorem finishes_guards {i : Nat} {name : CStr} {notLeaf notOpen : α} {voted : Except Fault α}
    (found : table.lookup name = some i) :
    Finishes (if table.children i ≠ [] then .ok notLeaf
      else if !(table.node i).isOpen || (table.node i).closed then .ok notOpen else voted) ↔
      (Voting table i → Finishes voted) := by
  by_cases leaf : table.children i ≠ []
  · rw [if_pos leaf]
    exact ⟨fun _ voting => absurd voting.leaf leaf, fun _ => finishes_ok _⟩
  · rw [if_neg leaf]
    by_cases shut : (!(table.node i).isOpen || (table.node i).closed) = true
    · rw [if_pos shut]
      refine ⟨fun _ voting => ?_, fun _ => finishes_ok _⟩
      simp [voting.isOpen, voting.notClosed] at shut
    · rw [if_neg shut]
      exact ⟨fun done _ => done, fun done => done (voting_of_guards found leaf shut)⟩

theorem finishes_fields {result : CStr → CStr → Except Fault α} (items : Nat → CStr → Prop)
    (none : ∀ input field, table.lookup (trimwhitespace field) = none → Finishes (result input field))
    (some_iff : ∀ input field i, table.lookup (trimwhitespace field) = some i →
      (Finishes (result input field) ↔ (Voting table i → items i input))) :
    (∃ input, argvp[2]? = some input ∧ ∃ field, argvp[1]? = some field ∧
      Finishes (result input field)) ↔
      3 ≤ argvp.length ∧ ∀ region input, table.Names argvp 1 region → argvp[2]? = some input →
        Voting table region → items region input := by
  constructor
  · intro ⟨input, present, field, fieldPresent, done⟩
    refine ⟨(List.getElem?_eq_some_iff.mp present).1, ?_⟩
    intro region other ⟨name, namePresent, found⟩ otherPresent voting
    rw [present, Option.some.injEq] at otherPresent
    rw [fieldPresent, Option.some.injEq] at namePresent
    subst otherPresent namePresent
    exact (some_iff _ _ _ found).mp done voting
  · intro ⟨enough, complete⟩
    have second : argvp[1]? = some argvp[1] := List.getElem?_eq_getElem (by omega)
    have third : argvp[2]? = some argvp[2] := List.getElem?_eq_getElem enough
    refine ⟨_, third, _, second, ?_⟩
    cases found : table.lookup (trimwhitespace argvp[1]) with
    | none => exact none _ _ found
    | some i =>
        exact (some_iff _ _ _ found).mpr (complete i _ ⟨_, second, found⟩ third)

theorem addVotes_finishes : Finishes (addVotes modulus table argvp) ↔
    3 ≤ argvp.length ∧ ∀ region input, table.Names argvp 1 region → argvp[2]? = some input →
      Voting table region → ∀ token ∈ makeargv (trimwhitespace input) ',', Complete token := by
  simp only [addVotes, finishes_arg_bind]
  refine finishes_fields
    (fun _ input => ∀ token ∈ makeargv (trimwhitespace input) ',', Complete token) ?_ ?_
  · intro input field found
    rw [found]
    exact finishes_ok _
  · intro input field i found
    simp only [found]
    refine (finishes_guards found).trans (imp_congr_right fun _ => ?_)
    rw [finishes_bind, ← finishes_addTokens]
    exact ⟨fun ⟨cursor, done, _⟩ => ⟨cursor, done⟩, fun ⟨cursor, done⟩ => ⟨cursor, done, finishes_ok _⟩⟩

theorem removeVotes_finishes : Finishes (removeVotes modulus table argvp) ↔
    3 ≤ argvp.length ∧ ∀ region input, table.Names argvp 1 region → argvp[2]? = some input →
      Voting table region → ∀ token ∈ makeargv (trimwhitespace input) ',',
        ∃ name, (makeargv token ':')[0]? = some name ∧
          (name ∈ names (table.node region).rootCounter → Complete token) := by
  simp only [removeVotes, finishes_arg_bind]
  refine finishes_fields (fun region input => ∀ token ∈ makeargv (trimwhitespace input) ',',
    ∃ name, (makeargv token ':')[0]? = some name ∧
      (name ∈ names (table.node region).rootCounter → Complete token)) ?_ ?_
  · intro input field found
    rw [found]
    exact finishes_ok _
  · intro input field i found
    simp only [found]
    refine (finishes_guards found).trans (imp_congr_right fun _ => ?_)
    rw [finishes_bind, ← finishes_shortNames]
    refine ⟨fun ⟨names, done, _⟩ => ⟨names, done⟩, fun ⟨names, done⟩ => ⟨names, done, ?_⟩⟩
    split
    · exact finishes_ok _
    · rename_i enough
      obtain ⟨votes, parsed, covered⟩ :=
        shortNames_nil_iff.mp (by simpa using (not_not.mp enough) ▸ done)
      have removed : removeTokens modulus (makeargv (trimwhitespace input) ',')
          (table.node i).rootCounter = .ok _ :=
        removeTokens_of_parsed parsed fun vote member => (covered vote member).mem_names
      refine finishes_bind.mpr ⟨_, removed, ?_⟩
      split <;> exact finishes_ok _

theorem answerAddVotes_finishes :
    Finishes (answerAddVotes modulus table argvp) ↔ Finishes (addVotes modulus table argvp) := by
  rw [answerAddVotes, finishes_bind]
  constructor
  · intro ⟨result, done, _⟩
    exact ⟨result, done⟩
  · intro ⟨result, done⟩
    refine ⟨result, done, finishes_arg_bind.mpr ?_⟩
    have enough := (addVotes_finishes.mp ⟨result, done⟩).1
    refine ⟨_, List.getElem?_eq_getElem (show 1 < argvp.length by omega), ?_⟩
    repeat' split
    all_goals exact finishes_ok _

theorem dispatchCode_finishes (wellFormed : WellFormed table) :
    Finishes (dispatchCode modulus table str) ↔ FieldsPresent table str := by
  rw [dispatchCode, FieldsPresent]
  cases command (trimlastenter str) with
  | returnWinner => simp [handle, returnWinner_finishes wellFormed]
  | removeVotes => exact removeVotes_finishes
  | countVotes => exact countVotes_finishes wellFormed
  | closePolls => exact answerPolls_finishes
  | openPolls => exact answerPolls_finishes
  | addVotes => exact answerAddVotes_finishes.trans addVotes_finishes
  | addRegion => exact addRegion_finishes
  | invalid => simp [handle, invalidCode, finishes_ok]

end Finishing

section OnlyNull

variable {α β : Type} {modulus : Nat} {table : Table} {str : CStr} {argvp tokens : List CStr}

theorem onlyNull_ok (value : α) : OnlyNull (.ok value : Except Fault α) := by
  intro fault same
  cases same

theorem onlyNull_bind {first : Except Fault α} {next : α → Except Fault β} (start : OnlyNull first)
    (rest : ∀ value, OnlyNull (next value)) : OnlyNull (first >>= next) := by
  cases first with
  | error fault =>
      intro other same
      cases same
      exact start fault rfl
  | ok value => exact rest value

theorem onlyNull_arg {k : Nat} : OnlyNull (arg argvp k) := by
  rw [arg]
  cases argvp[k]? with
  | none =>
      intro fault same
      cases same
      rfl
  | some field => exact onlyNull_ok field

theorem onlyNull_voteEntry {token : CStr} : OnlyNull (voteEntry token) :=
  onlyNull_bind onlyNull_arg fun _ => onlyNull_bind onlyNull_arg fun _ => onlyNull_ok _

theorem onlyNull_addTokens {cursor : Cursor} : OnlyNull (addTokens modulus tokens cursor) := by
  induction tokens generalizing cursor with
  | nil => exact onlyNull_ok cursor
  | cons token rest ih => exact onlyNull_bind onlyNull_voteEntry fun _ => ih

theorem onlyNull_shortNames {entries : List Counter} : OnlyNull (shortNames entries tokens) := by
  induction tokens with
  | nil => exact onlyNull_ok []
  | cons token rest ih =>
      refine onlyNull_bind onlyNull_arg fun name => onlyNull_bind ?_ fun _ =>
        onlyNull_bind ih fun _ => onlyNull_ok _
      rw [tooFew]
      split
      · exact onlyNull_ok _
      · exact onlyNull_bind onlyNull_arg fun _ => onlyNull_ok _

theorem onlyNull_removeTokens {entries : List Counter} :
    OnlyNull (removeTokens modulus tokens entries) := by
  induction tokens generalizing entries with
  | nil => exact onlyNull_ok _
  | cons token rest ih =>
      apply onlyNull_bind onlyNull_voteEntry
      intro vote
      split
      · exact onlyNull_ok _
      · exact ih

theorem onlyNull_addVotes : OnlyNull (addVotes modulus table argvp) := by
  refine onlyNull_bind onlyNull_arg fun input => onlyNull_bind onlyNull_arg fun field => ?_
  split
  · exact onlyNull_ok _
  · split
    · exact onlyNull_ok _
    · split
      · exact onlyNull_ok _
      · exact onlyNull_bind onlyNull_addTokens fun _ => onlyNull_ok _

theorem onlyNull_removeVotes : OnlyNull (removeVotes modulus table argvp) := by
  refine onlyNull_bind onlyNull_arg fun input => onlyNull_bind onlyNull_arg fun field => ?_
  split
  · exact onlyNull_ok _
  · split
    · exact onlyNull_ok _
    · split
      · exact onlyNull_ok _
      · apply onlyNull_bind onlyNull_shortNames
        intro names
        split
        · exact onlyNull_ok _
        · apply onlyNull_bind onlyNull_removeTokens
          intro result
          split <;> exact onlyNull_ok _

theorem onlyNull_of_finishes {result : Except Fault α} (finishes : Finishes result) :
    OnlyNull result := by
  obtain ⟨value, rfl⟩ := finishes
  exact onlyNull_ok value

theorem onlyNull_countVotes (wellFormed : WellFormed table) :
    OnlyNull (countVotes modulus table argvp) := by
  cases short : decide (2 ≤ argvp.length) with
  | true => exact onlyNull_of_finishes ((countVotes_finishes wellFormed).mpr (by simpa using short))
  | false =>
      have missing : argvp[1]? = none := List.getElem?_eq_none_iff.mpr (by simp at short; omega)
      intro fault failed
      rw [countVotes, arg, missing] at failed
      cases failed
      rfl

theorem onlyNull_answerPolls {rule : PollRule} {already notReady : CStr → Response} :
    OnlyNull (answerPolls table argvp (visitPolls rule) already notReady) := by
  apply onlyNull_bind onlyNull_arg
  intro field
  obtain ⟨f, after, visited⟩ := visitPolls_total rule table (.field field)
  simp only [visited]
  repeat' split
  all_goals exact onlyNull_ok _

theorem onlyNull_addRegion : OnlyNull (addRegion table argvp) := by
  refine onlyNull_bind onlyNull_arg fun input => onlyNull_bind onlyNull_arg fun field => ?_
  split <;> exact onlyNull_ok _

theorem onlyNull_answerAddVotes : OnlyNull (answerAddVotes modulus table argvp) := by
  refine onlyNull_bind onlyNull_addVotes fun result => onlyNull_bind onlyNull_arg fun field => ?_
  repeat' split
  all_goals exact onlyNull_ok _

/-- The recursions always end, so a fault is a null pointer. -/
theorem dispatchCode_onlyNull (wellFormed : WellFormed table) :
    OnlyNull (dispatchCode modulus table str) := by
  rw [dispatchCode]
  cases command (trimlastenter str) with
  | returnWinner => exact onlyNull_of_finishes (returnWinner_finishes wellFormed)
  | removeVotes => exact onlyNull_removeVotes
  | countVotes => exact onlyNull_countVotes wellFormed
  | closePolls => exact onlyNull_answerPolls
  | openPolls => exact onlyNull_answerPolls
  | addVotes => exact onlyNull_answerAddVotes
  | addRegion => exact onlyNull_addRegion
  | invalid => exact onlyNull_ok _

end OnlyNull

/-- A request is answered without the use of a missing field exactly where it carries the
fields its handler reads. -/
theorem dispatchCode_uses_fields_iff {file : CStr} {history : List Answered} {table : Table}
    (served : Served intModulus file history table) (str : CStr) :
    dispatchCode intModulus table str ≠ .error .nullPointer ↔ FieldsPresent table str := by
  have finishes : Finishes (dispatchCode intModulus table str) ↔ FieldsPresent table str :=
    dispatchCode_finishes served.wellFormed
  rw [← finishes]
  constructor
  · intro noNull
    cases result : dispatchCode intModulus table str with
    | ok answer => exact finishes_ok answer
    | error fault =>
        obtain rfl := dispatchCode_onlyNull served.wellFormed fault result
        exact absurd result noNull
  · intro ⟨answer, result⟩ null
    rw [null] at result
    cases result

theorem dispatchCode_uses_fields_iff_sample :
    (dispatchCode intModulus ⟨[{ name := ['R'], children := [1] }, { name := ['A'] }]⟩ "CV;A".toList ≠
      .error .nullPointer ↔
      FieldsPresent ⟨[{ name := ['R'], children := [1] }, { name := ['A'] }]⟩ "CV;A".toList) ∧
    FieldsPresent ⟨[{ name := ['R'], children := [1] }, { name := ['A'] }]⟩ "CV;A".toList := by
  have served : Served intModulus "R:A".toList []
      ⟨[{ name := ['R'], children := [1] }, { name := ['A'] }]⟩ := ⟨_, by decide, .nil⟩
  have fields : 2 ≤ (argvpOf "CV;A".toList).length := by decide
  exact ⟨dispatchCode_uses_fields_iff served _, fields⟩

/-- The request of the client for an empty vote file has no vote list. -/
theorem dispatchCode_uses_missing_field : ∃ table str, Served intModulus "R:A".toList [] table ∧
    str ≠ [] ∧ NUL ∉ str ∧ str.length < 1024 ∧
    dispatchCode intModulus table str = .error .nullPointer := by
  refine ⟨⟨[{ name := ['R'], children := [1] }, { name := ['A'] }]⟩,
    "AV;A".toList ++ List.replicate 44 ' ', ⟨_, by decide, .nil⟩, by decide, by decide, by decide, ?_⟩
  decide

end VoteCounting.Server
