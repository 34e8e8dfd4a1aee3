import VoteCounting.Client.Requests
import VoteCounting.Server.Requests

namespace VoteCounting.Client

open Counters CString Server

/-- What a line of the request file asks for, where it has all its words and its vote file
is there. -/
def asked (files : CStr → Option (List Char)) (state : State) (str : CStr) : Option Request :=
  let argvp := makeargv str ' '
  let region := argvp[1]?.map trimwhitespaceBuffer
  let votes := argvp[2]?.bind fun file =>
    (files (trimEnd file)).map fun text => live (leafcounter state.tally text)
  match (argvp[0]?.map trimwhitespaceBuffer).map String.ofList with
  | some "Open_Polls" => region.map .openPolls
  | some "Close_Polls" => region.map .closePolls
  | some "Count_Votes" => region.map .countVotes
  | some "Return_Winner" => some .returnWinner
  | some "Add_Region" => region.bind fun parent =>
      (argvp[2]?.map trimwhitespaceBuffer).map (.addRegion parent)
  | some "Add_Votes" => region.bind fun region => votes.map (.addVotes region)
  | some "Remove_Votes" => region.bind fun region => votes.map (.removeVotes region)
  | _ => none

structure RegionName (name : CStr) : Prop where
  nonempty : name ≠ []
  noBlank : ∀ c ∈ name, ¬ isspace c
  noSemicolon : ';' ∉ name

structure Vote (vote : Slot) : Prop where
  nonempty : vote.name ≠ []
  trimmed : trimwhitespace vote.name = vote.name
  noSemicolon : ';' ∉ vote.name
  noComma : ',' ∉ vote.name
  noColon : ':' ∉ vote.name
  positive : 1 ≤ vote.count
  small : vote.count < 2 ^ 31

/-- The names and votes of a request can be told apart again. -/
def Proper : Request → Prop
  | .openPolls region | .closePolls region | .countVotes region => RegionName region
  | .returnWinner => True
  | .addRegion parent child => RegionName parent ∧ RegionName child
  | .addVotes region votes | .removeVotes region votes =>
      RegionName region ∧ votes ≠ [] ∧ ∀ vote ∈ votes, Vote vote

section Fields

variable {code region : CStr}

theorem isspace_of_mem_replicate {count : Nat} {c : Char} (member : c ∈ List.replicate count ' ') :
    isspace c := by
  rw [List.eq_of_mem_replicate member]
  decide

theorem RegionName.trim_stringPad (proper : RegionName region) :
    trimwhitespace (stringPad region) = region := by
  rw [trimwhitespace, stringPad, trim_append_blanks fun _ => isspace_of_mem_replicate]
  exact trim_eq_self_of_noBlank proper.noBlank

theorem RegionName.stringPad_free (proper : RegionName region) : ';' ∉ stringPad region := by
  intro member
  rcases List.mem_append.mp member with own | padding
  · exact proper.noSemicolon own
  · cases List.eq_of_mem_replicate padding

theorem RegionName.stringPad_ne_nil (proper : RegionName region) : stringPad region ≠ [] := by
  simp [stringPad, proper.nonempty]

theorem RegionName.tokens_request (proper : RegionName region) (codeFree : ';' ∉ code)
    (codeNonempty : code ≠ []) (rest : CStr) :
    makeargv (code ++ ';' :: (stringPad region ++ ';' :: rest)) ';' =
      code :: stringPad region :: makeargv rest ';' := by
  rw [makeargv, tokens_word_delim codeFree codeNonempty,
    tokens_word_delim proper.stringPad_free proper.stringPad_ne_nil, ← makeargv]

theorem trimlastenter_of_last {str : CStr} (last : ∀ c, str.getLast? = some c → c ≠ '\n') :
    trimlastenter str = str := by
  rw [trimlastenter]
  split
  · rename_i newline
    exact absurd rfl (last _ newline)
  · rfl

/-- The argument vector of a request that starts with a code and a padded region. -/
theorem RegionName.argvpOf_request (proper : RegionName region) (code rest : CStr)
    (codeFree : ';' ∉ code) (codeNonempty : code ≠ []) (last : ∀ c, rest.getLast? = some c → c ≠ '\n') :
    trimlastenter (code ++ ';' :: (stringPad region ++ ';' :: rest)) =
        code ++ ';' :: (stringPad region ++ ';' :: rest) ∧
      argvpOf (code ++ ';' :: (stringPad region ++ ';' :: rest)) =
        code :: stringPad region :: makeargv rest ';' := by
  have kept : trimlastenter (code ++ ';' :: (stringPad region ++ ';' :: rest)) =
      code ++ ';' :: (stringPad region ++ ';' :: rest) := by
    apply trimlastenter_of_last
    intro c found
    cases final : rest.getLast? with
    | none =>
        obtain rfl := List.getLast?_eq_none_iff.mp final
        simp [List.getLast?_append, List.getLast?_cons] at found
        rw [← found]
        decide
    | some d =>
        simp [List.getLast?_append, List.getLast?_cons, final] at found
        exact found ▸ last d final
  exact ⟨kept, by rw [argvpOf, kept, proper.tokens_request codeFree codeNonempty]⟩

theorem getLast_replicate_blank {count : Nat} {c : Char}
    (found : (List.replicate count ' ').getLast? = some c) : c ≠ '\n' := by
  rw [List.eq_of_mem_replicate (List.mem_of_getLast? found)]
  decide

end Fields

section Votes

variable {vote : Slot} {votes : List Slot}

def voteItem (vote : Slot) : CStr := vote.name ++ ':' :: decimal vote.count

/-- The vote list with its last comma cut off. -/
def listText (votes : List Slot) : CStr := (votes.flatMap voteText).dropLast

theorem voteText_eq : voteText vote = voteItem vote ++ [','] := by simp [voteText, voteItem]

theorem listText_singleton : listText [vote] = voteItem vote := by
  simp [listText, voteText_eq]

theorem listText_cons (nonempty : votes ≠ []) :
    listText (vote :: votes) = voteItem vote ++ ',' :: listText votes := by
  have some : votes.flatMap voteText ≠ [] := by
    obtain ⟨first, rest, rfl⟩ := List.exists_cons_of_ne_nil nonempty
    simp [voteText_eq]
  rw [listText, List.flatMap_cons, List.dropLast_append_of_ne_nil some, voteText_eq, listText]
  simp

theorem Vote.comma_free (proper : Vote vote) : ',' ∉ voteItem vote := by
  intro member
  rcases List.mem_append.mp member with name | rest
  · exact proper.noComma name
  · rcases List.mem_cons.mp rest with colon | digits
    · cases colon
    · exact mem_decimal_ne digits (by decide) (by decide) rfl

theorem Vote.semicolon_free (proper : Vote vote) : ';' ∉ voteItem vote := by
  intro member
  rcases List.mem_append.mp member with name | rest
  · exact proper.noSemicolon name
  · rcases List.mem_cons.mp rest with colon | digits
    · cases colon
    · exact mem_decimal_ne digits (by decide) (by decide) rfl

theorem voteItem_ne_nil : voteItem vote ≠ [] := by simp [voteItem]

theorem Vote.voteEntry_voteItem (proper : Vote vote) : voteEntry (voteItem vote) = .ok vote := by
  have digits : ':' ∉ decimal vote.count := fun member =>
    mem_decimal_ne member (by decide) (by decide) rfl
  have fields : makeargv (voteItem vote) ':' = [vote.name, decimal vote.count] := by
    rw [makeargv, voteItem, tokens_word_delim proper.noColon proper.nonempty,
      tokens_word digits (decimal_ne_nil _)]
  have count : atoi (decimal vote.count) = vote.count :=
    atoi_decimal (by have := proper.positive; omega) proper.small
  simp only [voteEntry, fields, arg, List.getElem?_cons_zero, List.getElem?_cons_succ]
  show Except.ok (⟨vote.name, atoi (decimal vote.count)⟩ : Counter) = _
  rw [count]

theorem tokens_listText (proper : ∀ vote ∈ votes, Vote vote) (nonempty : votes ≠ []) :
    makeargv (listText votes) ',' = votes.map voteItem := by
  induction votes with
  | nil => exact absurd rfl nonempty
  | cons vote rest ih =>
      have first := proper vote (by simp)
      cases rest with
      | nil => rw [listText_singleton, makeargv, tokens_word first.comma_free voteItem_ne_nil]; rfl
      | cons next later =>
          have remaining :=
            ih (fun vote member => proper vote (List.mem_cons_of_mem _ member)) (by simp)
          rw [listText_cons (by simp), makeargv, tokens_word_delim first.comma_free voteItem_ne_nil,
            ← makeargv, remaining]
          rfl

theorem parseVotes_voteItems (proper : ∀ vote ∈ votes, Vote vote) :
    parseVotes (votes.map voteItem) = .ok votes := by
  induction votes with
  | nil => rfl
  | cons vote rest ih =>
      exact parseVotes_cons (proper vote (by simp)).voteEntry_voteItem
        (ih fun vote member => proper vote (List.mem_cons_of_mem _ member))

theorem listText_semicolon_free (proper : ∀ vote ∈ votes, Vote vote) : ';' ∉ listText votes := by
  intro member
  obtain ⟨vote, held, inside⟩ := List.mem_flatMap.mp (List.dropLast_subset _ member)
  rw [voteText_eq] at inside
  rcases List.mem_append.mp inside with item | comma
  · exact (proper vote held).semicolon_free item
  · cases List.mem_singleton.mp comma

theorem Vote.first (proper : Vote vote) : ∃ c rest, vote.name = c :: rest ∧ ¬ isspace c := by
  obtain ⟨c, rest, name⟩ := List.exists_cons_of_ne_nil proper.nonempty
  refine ⟨c, rest, name, fun blank => ?_⟩
  have kept : vote.name.dropWhile isspace = vote.name := by
    have trimmed := trim_dropWhile vote.name
    rwa [← trimwhitespace, proper.trimmed] at trimmed
  have shorter := (List.dropWhile_suffix (p := isspace) (l := rest)).length_le
  rw [name, List.dropWhile_cons_of_pos blank] at kept
  rw [kept, List.length_cons] at shorter
  omega

theorem voteItem_last : ∃ front c, voteItem vote = front ++ [c] ∧ ¬ isspace c := by
  obtain ⟨digits, c, number⟩ := List.eq_nil_or_concat' (decimal vote.count) |>.resolve_left
    (decimal_ne_nil _)
  refine ⟨vote.name ++ ':' :: digits, c, by simp [voteItem, number], ?_⟩
  have member : c ∈ decimal vote.count := by simp [number]
  rcases isDigit_of_mem_decimal member with rfl | digit
  · decide
  · exact not_isspace_of_isDigit digit

theorem listText_ends (proper : ∀ vote ∈ votes, Vote vote) (nonempty : votes ≠ []) :
    (∃ c rest, listText votes = c :: rest ∧ ¬ isspace c) ∧
      ∃ front c, listText votes = front ++ [c] ∧ ¬ isspace c := by
  induction votes with
  | nil => exact absurd rfl nonempty
  | cons vote rest ih =>
      obtain ⟨c, name, first, visible⟩ := (proper vote (by simp)).first
      cases rest with
      | nil =>
          rw [listText_singleton]
          exact ⟨⟨c, name ++ ':' :: decimal vote.count, by simp [voteItem, first], visible⟩,
            voteItem_last⟩
      | cons next later =>
          rw [listText_cons (by simp)]
          obtain ⟨_, front, d, last, alsoVisible⟩ :=
            ih (fun vote member => proper vote (List.mem_cons_of_mem _ member)) (by simp)
          refine ⟨⟨c, _, by rw [voteItem, first]; rfl, visible⟩, voteItem vote ++ ',' :: front, d, ?_,
            alsoVisible⟩
          rw [last]
          simp

theorem trim_listText (proper : ∀ vote ∈ votes, Vote vote) (nonempty : votes ≠ []) (count : Nat) :
    trimwhitespace (listText votes ++ List.replicate count ' ') = listText votes := by
  obtain ⟨⟨c, tail, first, visible⟩, front, d, last, alsoVisible⟩ := listText_ends proper nonempty
  rw [trimwhitespace, trim_append_blanks fun _ => isspace_of_mem_replicate]
  refine trim_eq_self_of_ends (by simp [first]) ?_ ?_
  · simpa only [first, List.head_cons] using visible
  · simpa only [last, List.getLast_concat] using alsoVisible

end Votes

section Requests

variable {state : State} {name child : CStr}

theorem RegionName.regionField_request {region : CStr} (proper : RegionName region) (code : CStr)
    (count : Nat) (codeFree : ';' ∉ code) (codeNonempty : code ≠ []) :
    trimlastenter (code ++ ';' :: (stringPad region ++ ';' :: List.replicate count ' ')) =
        code ++ ';' :: (stringPad region ++ ';' :: List.replicate count ' ') ∧
      regionField (code ++ ';' :: (stringPad region ++ ';' :: List.replicate count ' ')) =
        some region := by
  obtain ⟨kept, fields⟩ := proper.argvpOf_request code (List.replicate count ' ') codeFree codeNonempty
    fun _ => getLast_replicate_blank
  refine ⟨kept, ?_⟩
  rw [regionField, fields]
  exact congrArg some proper.trim_stringPad

theorem RegionName.decode_openPolls (proper : RegionName (trimwhitespaceBuffer name)) :
    decode (openPolls state name) = some (.openPolls (trimwhitespaceBuffer name)) := by
  have message : openPolls state name = "OP".toList ++ ';' :: (stringPad (trimwhitespaceBuffer name) ++
      ';' :: List.replicate state.maxData ' ') := by simp [openPolls, regionRequest, capReq]
  obtain ⟨kept, field⟩ := proper.regionField_request "OP".toList state.maxData (by decide) (by decide)
  rw [message, decode, kept]
  exact congrArg (Option.map Request.openPolls) field

theorem RegionName.decode_countVotes (proper : RegionName (trimwhitespaceBuffer name)) :
    decode (countVotes state name) = some (.countVotes (trimwhitespaceBuffer name)) := by
  have message : countVotes state name = "CV".toList ++ ';' :: (stringPad (trimwhitespaceBuffer name) ++
      ';' :: List.replicate state.maxData ' ') := by simp [countVotes, regionRequest, capReq]
  obtain ⟨kept, field⟩ := proper.regionField_request "CV".toList state.maxData (by decide) (by decide)
  rw [message, decode, kept]
  exact congrArg (Option.map Request.countVotes) field

theorem RegionName.decode_closePolls (proper : RegionName (trimwhitespaceBuffer name)) :
    decode (closePolls state name) = some (.closePolls (trimwhitespaceBuffer name)) := by
  have message : closePolls state name = "CP".toList ++ ';' :: (stringPad (trimwhitespaceBuffer name) ++
      ';' :: List.replicate (7 + state.maxData) ' ') := by
    simp [closePolls, regionRequest, capReq, List.replicate_add]
  obtain ⟨kept, field⟩ :=
    proper.regionField_request "CP".toList (7 + state.maxData) (by decide) (by decide)
  rw [message, decode, kept]
  exact congrArg (Option.map Request.closePolls) field

theorem decode_returnWinner : decode (returnWinner state) = some .returnWinner := by
  have kept : trimlastenter (returnWinner state) = returnWinner state := by
    apply trimlastenter_of_last
    intro c found
    have member := List.mem_of_getLast? found
    rcases List.mem_append.mp member with code | padding
    · intro newline
      rw [newline] at code
      revert code
      decide
    · rw [List.eq_of_mem_replicate padding]
      decide
  rw [decode, kept]
  rfl

theorem RegionName.decode_addRegion (proper : RegionName (trimwhitespaceBuffer name))
    (childProper : RegionName (trimwhitespaceBuffer child)) :
    decode (addRegion state name child) =
      some (.addRegion (trimwhitespaceBuffer name) (trimwhitespaceBuffer child)) := by
  have message :
    addRegion state name child = "AR".toList ++ ';' :: (stringPad (trimwhitespaceBuffer name) ++
      ';' :: (trimwhitespaceBuffer child ++ List.replicate state.maxData ' ')) := by
    simp [addRegion, regionRequest, capReq]
  have free : ';' ∉ trimwhitespaceBuffer child ++ List.replicate state.maxData ' ' := by
    simp [childProper.noSemicolon]
  obtain ⟨kept, fields⟩ := proper.argvpOf_request "AR".toList
    (trimwhitespaceBuffer child ++ List.replicate state.maxData ' ') (by decide) (by decide) <| by
      intro c found
      rintro rfl
      rcases List.mem_append.mp (List.mem_of_getLast? found) with own | padding
      · exact childProper.noBlank _ own (by decide)
      · cases List.eq_of_mem_replicate padding
  have trimmed : trimwhitespace (trimwhitespaceBuffer child ++ List.replicate state.maxData ' ') =
      trimwhitespaceBuffer child := by
    rw [trimwhitespace, trim_append_blanks fun _ => isspace_of_mem_replicate]
    exact trim_eq_self_of_noBlank childProper.noBlank
  rw [message, decode, kept]
  show (regionField _).bind (fun parent => (childField _).map (Request.addRegion parent)) = _
  rw [regionField, childField, fields, makeargv, tokens_word free (by simp [childProper.nonempty])]
  show some (Request.addRegion (trimwhitespace _) (trimwhitespace _)) = _
  rw [proper.trim_stringPad, trimmed]

theorem printFileIntoData_eq (code : CStr) (nonempty : live state.tally ≠ []) :
    ∃ count, (printFileIntoData state code).1 =
      code ++ (listText (live state.tally) ++ List.replicate (1 + count) ' ') := by
  have some : (live state.tally).flatMap voteText ≠ [] := by
    obtain ⟨first, rest, same⟩ := List.exists_cons_of_ne_nil nonempty
    simp [same, voteText_eq]
  refine ⟨5 + (printFileIntoData state code).2.maxData, ?_⟩
  have padding : "      ".toList = List.replicate 6 ' ' := rfl
  rw [show 1 + (5 + (printFileIntoData state code).2.maxData) =
    6 + (printFileIntoData state code).2.maxData by omega, List.replicate_add]
  simp only [printFileIntoData, capReq, List.dropLast_append_of_ne_nil some, padding, listText,
    List.append_assoc]

theorem RegionName.votes_request {region : CStr} (proper : RegionName region) (state : State)
    (votesProper : ∀ vote ∈ live state.tally, Vote vote) (nonempty : live state.tally ≠ [])
    (code : CStr) (codeFree : ';' ∉ code) (codeNonempty : code ≠ []) :
    ∃ rest message, (printFileIntoData state (code ++ ';' :: (stringPad region ++ [';']))).1 = message ∧
      message = code ++ ';' :: rest ∧ trimlastenter message = message ∧
      regionField message = some region ∧ votesField message = some (live state.tally) := by
  obtain ⟨count, printed⟩ := printFileIntoData_eq (code ++ ';' :: (stringPad region ++ [';'])) nonempty
  have free : ';' ∉ listText (live state.tally) ++ List.replicate (1 + count) ' ' := by
    simp [listText_semicolon_free votesProper]
  obtain ⟨kept, fields⟩ := proper.argvpOf_request code
    (listText (live state.tally) ++ List.replicate (1 + count) ' ') codeFree codeNonempty <| by
      intro c found
      rw [Nat.add_comm, List.replicate_succ', ← List.append_assoc, List.getLast?_concat] at found
      obtain rfl := Option.some.inj found
      decide
  refine ⟨_, _, printed.trans (by simp), rfl, kept, ?_, ?_⟩
  · rw [regionField, fields]
    exact congrArg some proper.trim_stringPad
  · rw [votesField, fields, makeargv, tokens_word free (by simp)]
    show (parseVotes (makeargv (trimwhitespace _) ',')).toOption = _
    rw [trim_listText votesProper nonempty, tokens_listText votesProper nonempty,
      parseVotes_voteItems votesProper]
    rfl

theorem RegionName.decode_addVotes (proper : RegionName (trimwhitespaceBuffer name)) (state : State)
    (votesProper : ∀ vote ∈ live state.tally, Vote vote) (nonempty : live state.tally ≠ []) :
    decode (printFileIntoData state
      ("AV;".toList ++ stringPad (trimwhitespaceBuffer name) ++ [';'])).1 =
      some (.addVotes (trimwhitespaceBuffer name) (live state.tally)) := by
  obtain ⟨rest, message, printed, begins, kept, region, votes⟩ :=
    proper.votes_request state votesProper nonempty "AV".toList (by decide) (by decide)
  have selected : command message = .addVotes := by rw [begins]; rfl
  rw [show "AV;".toList ++ stringPad (trimwhitespaceBuffer name) ++ [';'] =
    "AV".toList ++ ';' :: (stringPad (trimwhitespaceBuffer name) ++ [';']) by simp, printed,
      decode, kept,
    selected]
  simp only [region, votes, Option.bind_some, Option.map_some]

theorem RegionName.decode_removeVotes (proper : RegionName (trimwhitespaceBuffer name)) (state : State)
    (votesProper : ∀ vote ∈ live state.tally, Vote vote) (nonempty : live state.tally ≠ []) :
    decode (printFileIntoData state
      ("RV;".toList ++ stringPad (trimwhitespaceBuffer name) ++ [';'])).1 =
      some (.removeVotes (trimwhitespaceBuffer name) (live state.tally)) := by
  obtain ⟨rest, message, printed, begins, kept, region, votes⟩ :=
    proper.votes_request state votesProper nonempty "RV".toList (by decide) (by decide)
  have selected : command message = .removeVotes := by rw [begins]; rfl
  rw [show "RV;".toList ++ stringPad (trimwhitespaceBuffer name) ++ [';'] =
    "RV".toList ++ ';' :: (stringPad (trimwhitespaceBuffer name) ++ [';']) by simp, printed,
      decode, kept,
    selected]
  simp only [region, votes, Option.bind_some, Option.map_some]

end Requests

section Lines

variable {files : CStr → Option (List Char)} {state : State} {str : CStr}

theorem first_word {cmd : String}
    (found : ((makeargv str ' ')[0]?.map trimwhitespaceBuffer).map String.ofList = some cmd) :
    ∃ word, (makeargv str ' ').head? = some word ∧ trimwhitespaceBuffer word = cmd.toList := by
  rw [List.head?_eq_getElem?]
  cases first : (makeargv str ' ')[0]? with
  | none => simp [first] at found
  | some word =>
      refine ⟨word, rfl, ?_⟩
      simp only [first, Option.map_some, Option.some.injEq] at found
      rw [← found, String.toList_ofList]

theorem word_present {i : Nat} {name : CStr}
    (found : (makeargv str ' ')[i]?.map trimwhitespaceBuffer = some name) :
    trimwhitespaceBuffer ((makeargv str ' ').getD i []) = name := by
  obtain ⟨word, present, trimmed⟩ := Option.map_eq_some_iff.mp found
  rw [List.getD_eq_getElem?_getD, present]
  exact trimmed

theorem file_present {i : Nat} {votes : List Slot}
    (found : ((makeargv str ' ')[i]?.bind fun file =>
      (files (trimEnd file)).map fun text => live (leafcounter state.tally text)) = some votes) :
    ∃ text, files (trimEnd ((makeargv str ' ').getD i [])) = some text ∧
      live (leafcounter state.tally text) = votes := by
  obtain ⟨file, present, read⟩ := Option.bind_eq_some_iff.mp found
  obtain ⟨text, opened, counted⟩ := Option.map_eq_some_iff.mp read
  exact ⟨text, by rw [List.getD_eq_getElem?_getD, present]; exact opened, counted⟩

end Lines

/-- The server reads from every request the client sends what the line asked for. -/
theorem decode_dispatchLine (files : CStr → Option (List Char)) (state : State) (str : CStr)
    (request : Request) (complete : asked files state str = some request) (proper : Proper request) :
    ∃ message after, dispatchLine files state str = some (some message, after) ∧
      decode message = some request := by
  rw [asked] at complete
  rw [dispatchLine]
  simp only at complete ⊢
  split at complete
  · rename_i first
    obtain ⟨word, found, cmd⟩ := first_word first
    obtain ⟨region, named, rfl⟩ := Option.map_eq_some_iff.mp complete
    obtain rfl := word_present named
    simp only [found, cmd]
    exact ⟨_, _, rfl, proper.decode_openPolls⟩
  · rename_i first
    obtain ⟨word, found, cmd⟩ := first_word first
    obtain ⟨region, named, rfl⟩ := Option.map_eq_some_iff.mp complete
    obtain rfl := word_present named
    simp only [found, cmd]
    exact ⟨_, _, rfl, proper.decode_closePolls⟩
  · rename_i first
    obtain ⟨word, found, cmd⟩ := first_word first
    obtain ⟨region, named, rfl⟩ := Option.map_eq_some_iff.mp complete
    obtain rfl := word_present named
    simp only [found, cmd]
    exact ⟨_, _, rfl, proper.decode_countVotes⟩
  · rename_i first
    obtain ⟨word, found, cmd⟩ := first_word first
    obtain rfl := Option.some.inj complete
    simp only [found, cmd]
    exact ⟨_, _, rfl, decode_returnWinner⟩
  · rename_i first
    obtain ⟨word, found, cmd⟩ := first_word first
    obtain ⟨parent, named, complete⟩ := Option.bind_eq_some_iff.mp complete
    obtain ⟨child, alsoNamed, rfl⟩ := Option.map_eq_some_iff.mp complete
    obtain rfl := word_present named
    obtain rfl := word_present alsoNamed
    simp only [found, cmd]
    exact ⟨_, _, rfl, proper.1.decode_addRegion proper.2⟩
  · rename_i first
    obtain ⟨word, found, cmd⟩ := first_word first
    obtain ⟨region, named, complete⟩ := Option.bind_eq_some_iff.mp complete
    obtain ⟨votes, counted, rfl⟩ := Option.map_eq_some_iff.mp complete
    obtain rfl := word_present named
    obtain ⟨text, opened, rfl⟩ := file_present counted
    obtain ⟨named, nonempty, votes⟩ := proper
    simp only [found, cmd, addVotes, voteRequest, opened]
    exact ⟨_, _, rfl, named.decode_addVotes
      { state with tally := leafcounter state.tally text } votes nonempty⟩
  · rename_i first
    obtain ⟨word, found, cmd⟩ := first_word first
    obtain ⟨region, named, complete⟩ := Option.bind_eq_some_iff.mp complete
    obtain ⟨votes, counted, rfl⟩ := Option.map_eq_some_iff.mp complete
    obtain rfl := word_present named
    obtain ⟨text, opened, rfl⟩ := file_present counted
    obtain ⟨named, nonempty, votes⟩ := proper
    simp only [found, cmd, removeVotes, voteRequest, opened]
    exact ⟨_, _, rfl, named.decode_removeVotes
      { state with tally := leafcounter state.tally text } votes nonempty⟩
  · cases complete

theorem decode_dispatchLine_sample : ∃ message after,
    dispatchLine (fun path => if path = "a.votes".toList then some "X\nY\nX\n".toList else none)
      { maxData := 40 } "Add_Votes A a.votes\n".toList = some (some message, after) ∧
    decode message = some (.addVotes ['A'] [⟨['X'], 2⟩, ⟨['Y'], 1⟩]) := by
  have visible : ∀ c ∈ ['A'], ¬ isspace c := fun c member => List.mem_singleton.mp member ▸ by decide
  refine decode_dispatchLine _ _ _ _ (by decide) ⟨⟨by decide, visible, by decide⟩, by decide, ?_⟩
  intro vote member
  rcases List.mem_cons.mp member with rfl | member
  · exact ⟨by decide, by decide, by decide, by decide, by decide, by decide, by decide⟩
  · obtain rfl := List.mem_singleton.mp member
    exact ⟨by decide, by decide, by decide, by decide, by decide, by decide, by decide⟩

end VoteCounting.Client
