import VoteCounting.Server.Dispatch

namespace VoteCounting.Server

open Counters CString

/-- The region a request field names. -/
def Table.Names (table : Table) (argvp : List CStr) (k region : Nat) : Prop :=
  ∃ field, argvp[k]? = some field ∧ table.lookup (trimwhitespace field) = some region

theorem Table.Names.unique {table : Table} {argvp : List CStr} {k i j : Nat}
    (left : table.Names argvp k i) (right : table.Names argvp k j) : i = j := by
  obtain ⟨field, present, found⟩ := left
  obtain ⟨other, otherPresent, otherFound⟩ := right
  rw [present, Option.some.injEq] at otherPresent
  subst otherPresent
  rwa [found, Option.some.injEq] at otherFound

/-- A region that accepts votes. -/
structure Voting (table : Table) (region : Nat) : Prop where
  inside : region < table.size
  leaf : table.children region = []
  isOpen : (table.node region).isOpen = true
  notClosed : (table.node region).closed = false

/-- The two poll requests with the rules they follow. -/
def pollRule : Command → Option PollRule
  | .openPolls => some openRule
  | .closePolls => some closeRule
  | _ => none

theorem pollRule_eq {command : Command} {rule : PollRule} (selected : pollRule command = some rule) :
    (command = .openPolls ∧ rule = openRule) ∨ (command = .closePolls ∧ rule = closeRule) := by
  cases command <;> simp_all [pollRule, eq_comm]

def countAnswer (node : Node) : Response :=
  if node.hasdata then .votes node.rootCounter else .noVotes

def winnerAnswer (node : Node) : Response :=
  if node.hasdata then .winner (winnerName node.rootCounter) else .noVotes

def removeAnswer : Option CStr → Response
  | some name => .insufficient [name]
  | none => .success

inductive Step (modulus : Nat) (table : Table) (str : CStr) : List Response → Table → Prop
  | refused {response : Response} : response.isSuccess = false → Step modulus table str [response] table
  | polls {rule : PollRule} {field : CStr} {region : Nat} {after : Table} :
      pollRule (command (trimlastenter str)) = some rule → (argvpOf str)[1]? = some field →
      table.lookup (trimwhitespace field) = some region → rule.refusal (table.node region) = none →
      visitPolls rule (table.size + 1) table (.field field) = some (1, after) →
      Step modulus table str [.success] after
  | votesAdded {input : CStr} {region : Nat} {cursor : Cursor} :
      command (trimlastenter str) = .addVotes → table.Names (argvpOf str) 1 region →
      (argvpOf str)[2]? = some input → Voting table region →
      addTokens modulus (makeargv (trimwhitespace input) ',')
        ⟨[], (table.node region).rootCounter⟩ = .ok cursor →
      Step modulus table str [.success] (table.modify region fun node =>
        { node with rootCounter := cursor.entries, hasdata := true })
  | votesRemoved {input : CStr} {region : Nat} {entries : List Counter} {stopped : Option CStr} :
      command (trimlastenter str) = .removeVotes → table.Names (argvpOf str) 1 region →
      (argvpOf str)[2]? = some input → Voting table region →
      shortNames (table.node region).rootCounter (makeargv (trimwhitespace input) ',') = .ok [] →
      removeTokens modulus (makeargv (trimwhitespace input) ',') (table.node region).rootCounter =
        .ok (entries, stopped) →
      Step modulus table str [removeAnswer stopped] (table.modify region fun node =>
        { node with rootCounter := entries })
  | regionAdded {parent : Nat} {childname : CStr} :
      command (trimlastenter str) = .addRegion → table.Names (argvpOf str) 1 parent →
      (argvpOf str)[2]? = some childname →
      Step modulus table str [.regionAdded (trimwhitespace childname)]
        (addChild table parent (trimwhitespace childname))
  | votesRead {region : Nat} :
      command (trimlastenter str) = .countVotes → table.Names (argvpOf str) 1 region →
      (table.node region).hasdata = true →
      Step modulus table str [.votes (table.node region).rootCounter] table
  | votesCounted {region : Nat} {after : Table} :
      command (trimlastenter str) = .countVotes → table.Names (argvpOf str) 1 region →
      (table.node region).hasdata = false → aggregate modulus table.size table region = some after →
      Step modulus table str [countAnswer (after.node region)] after
  | won {after : Table} :
      command (trimlastenter str) = .returnWinner → settled (table.node 0) = true →
      (∀ i < table.size, table.children i = [] → settled (table.node i) = true) →
      aggregate modulus table.size table 0 = some after →
      Step modulus table str [winnerAnswer (after.node 0)] after

/-- Every request is answered with one message. -/
theorem Step.single {modulus : Nat} {table after : Table} {str : CStr} {answer : List Response}
    (step : Step modulus table str answer after) : ∃ response, answer = [response] := by
  cases step <;> exact ⟨_, rfl⟩

theorem Step.of_countVotes {modulus region : Nat} {table after : Table} {str : CStr}
    {answer : List Response}
    (step : Step modulus table str answer after) (selected : command (trimlastenter str) = .countVotes)
    (named : table.Names (argvpOf str) 1 region) :
    (∃ response, response.isSuccess = false ∧ answer = [response]) ∨
      ((table.node region).hasdata = true ∧ answer = [.votes (table.node region).rootCounter]) ∨
      ((table.node region).hasdata = false ∧ aggregate modulus table.size table region = some after ∧
        answer = [countAnswer (after.node region)]) := by
  cases step with
  | refused failure => exact .inl ⟨_, failure, rfl⟩
  | polls ruled => rcases pollRule_eq ruled with ⟨other, _⟩ | ⟨other, _⟩ <;> simp [selected] at other
  | votesRead _ target counted =>
      obtain rfl := target.unique named
      exact .inr (.inl ⟨counted, rfl⟩)
  | votesCounted _ target uncounted counted =>
      obtain rfl := target.unique named
      exact .inr (.inr ⟨uncounted, counted, rfl⟩)
  | votesAdded other | votesRemoved other | regionAdded other | won other => simp [selected] at other

theorem Step.of_returnWinner {modulus : Nat} {table after : Table} {str : CStr} {answer : List Response}
    (step : Step modulus table str answer after)
    (selected : command (trimlastenter str) = .returnWinner) :
    (∃ response, response.isSuccess = false ∧ answer = [response]) ∨
      (settled (table.node 0) = true ∧
        (∀ i < table.size, table.children i = [] → settled (table.node i) = true) ∧
        aggregate modulus table.size table 0 = some after ∧
          answer = [winnerAnswer (after.node 0)]) := by
  cases step with
  | refused failure => exact .inl ⟨_, failure, rfl⟩
  | polls ruled => rcases pollRule_eq ruled with ⟨other, _⟩ | ⟨other, _⟩ <;> simp [selected] at other
  | won _ root leaves counted => exact .inr ⟨root, leaves, counted, rfl⟩
  | votesAdded other | votesRemoved other | regionAdded other | votesRead other | votesCounted other =>
      simp [selected] at other

section Inversion

variable {modulus : Nat} {table after : Table} {str : CStr} {argvp : List CStr}
  {answer : List Response}

theorem arg_ok {k : Nat} {field : CStr} (present : arg argvp k = .ok field) :
    argvp[k]? = some field := by
  rw [arg] at present
  split at present
  · rename_i held
    cases present
    exact held
  · cases present

theorem bind_ok {α β : Type} {first : Except Fault α} {next : α → Except Fault β} {result : β}
    (done : first >>= next = .ok result) : ∃ value, first = .ok value ∧ next value = .ok result := by
  cases first with
  | error fault => cases done
  | ok value => exact ⟨value, rfl, done⟩

theorem lookup_root (nonempty : 0 < table.size) : table.lookup (table.node 0).name = some 0 := by
  obtain ⟨nodes⟩ := table
  cases nodes with
  | nil => exact absurd nonempty (Nat.lt_irrefl 0)
  | cons first rest => simp [Table.lookup, Table.node, List.findIdx?_cons]

theorem returnWinner_step (nonempty : 0 < table.size)
    (selected : command (trimlastenter str) = .returnWinner)
    (done : returnWinner modulus table = .ok (answer, after)) :
    Step modulus table str answer after := by
  have first : table.nodes.head? = some (table.node 0) := by
    rw [List.head?_eq_getElem?, List.getElem?_eq_getElem nonempty, Table.node_eq_getElem nonempty]
  simp only [returnWinner, first, lookup_root nonempty] at done
  split at done
  · cases done
    exact .refused rfl
  · rename_i closed
    simp only [Bool.or_eq_true, Bool.not_eq_true', not_or, Bool.not_eq_false] at closed
    have leaves : ∀ i < table.size, table.children i = [] → settled (table.node i) = true := by
      intro i inside leaf
      have member : table.node i ∈ table.nodes := by
        rw [Table.node_eq_getElem inside]
        exact List.getElem_mem inside
      have checked := List.all_eq_true.mp closed.2 _ member
      have noChild : (table.node i).children = [] := leaf
      simpa [noChild] using checked
    cases counted : aggregate modulus table.size table 0 with
    | none => simp [counted] at done
    | some last =>
        have same : answer = [winnerAnswer (last.node 0)] ∧ after = last := by
          simp only [counted] at done
          rw [winnerAnswer]
          split at done <;> cases done <;> simp_all
        obtain ⟨rfl, rfl⟩ := same
        exact .won selected closed.1 leaves counted

theorem countVotes_step (selected : command (trimlastenter str) = .countVotes)
    (done : countVotes modulus table (argvpOf str) = .ok (answer, after)) :
    Step modulus table str answer after := by
  obtain ⟨field, present, done⟩ := bind_ok done
  cases found : table.lookup (trimwhitespace field) with
  | none =>
      simp only [found, Except.ok.injEq, Prod.mk.injEq] at done
      obtain ⟨rfl, rfl⟩ := done
      exact .refused rfl
  | some i =>
      have named : table.Names (argvpOf str) 1 i := ⟨field, arg_ok present, found⟩
      simp only [found] at done
      split at done
      · rename_i counted
        simp only [Except.ok.injEq, Prod.mk.injEq] at done
        obtain ⟨rfl, rfl⟩ := done
        exact .votesRead selected named counted
      · rename_i uncounted
        cases counted : aggregate modulus table.size table i with
        | none => simp [counted] at done
        | some last =>
            have same : answer = [countAnswer (last.node i)] ∧ after = last := by
              simp only [counted] at done
              rw [countAnswer]
              split at done <;> cases done <;> simp_all
            obtain ⟨rfl, rfl⟩ := same
            exact .votesCounted selected named (by simpa using uncounted) counted

theorem addRegion_step (selected : command (trimlastenter str) = .addRegion)
    (done : addRegion table (argvpOf str) = .ok (answer, after)) :
    Step modulus table str answer after := by
  obtain ⟨parentname, parentPresent, done⟩ := bind_ok done
  obtain ⟨childname, childPresent, done⟩ := bind_ok done
  cases found : table.lookup (trimwhitespace parentname) with
  | none =>
      simp only [found, Except.ok.injEq, Prod.mk.injEq] at done
      obtain ⟨rfl, rfl⟩ := done
      exact .refused rfl
  | some i =>
      simp only [found, Except.ok.injEq, Prod.mk.injEq] at done
      obtain ⟨rfl, rfl⟩ := done
      exact .regionAdded selected ⟨parentname, arg_ok parentPresent, found⟩ (arg_ok childPresent)

theorem voting_of_guards {i : Nat} {name : CStr} (found : table.lookup name = some i)
    (leaf : ¬ table.children i ≠ [])
    (accepting : ¬ (!(table.node i).isOpen || (table.node i).closed) = true) : Voting table i := by
  simp only [Bool.or_eq_true, Bool.not_eq_true', not_or, Bool.not_eq_false,
    Bool.not_eq_true] at accepting
  exact ⟨(Table.lookup_some found).1, by simpa using leaf, accepting.1, accepting.2⟩

theorem removeVotes_step (selected : command (trimlastenter str) = .removeVotes)
    (done : removeVotes modulus table (argvpOf str) = .ok (answer, after)) :
    Step modulus table str answer after := by
  obtain ⟨input, inputPresent, done⟩ := bind_ok done
  obtain ⟨field, fieldPresent, done⟩ := bind_ok done
  cases found : table.lookup (trimwhitespace field) with
  | none =>
      simp only [found, Except.ok.injEq, Prod.mk.injEq] at done
      obtain ⟨rfl, rfl⟩ := done
      exact .refused rfl
  | some i =>
      simp only [found] at done
      split at done
      · cases done
        exact .refused rfl
      · rename_i leaf
        split at done
        · cases done
          exact .refused rfl
        · rename_i accepting
          obtain ⟨names, checked, done⟩ := bind_ok done
          split at done
          · cases done
            exact .refused rfl
          · rename_i enough
            obtain ⟨⟨entries, stopped⟩, removed, done⟩ := bind_ok done
            have none : names = [] := by simpa using enough
            have same : answer = [removeAnswer stopped] ∧ after = table.modify i fun node =>
                { node with rootCounter := entries } := by
              cases stopped <;> cases done <;> exact ⟨rfl, rfl⟩
            obtain ⟨rfl, rfl⟩ := same
            exact .votesRemoved selected ⟨field, arg_ok fieldPresent, found⟩ (arg_ok inputPresent)
              (voting_of_guards found leaf accepting) (none ▸ checked) removed

theorem answerAddVotes_step (selected : command (trimlastenter str) = .addVotes)
    (done : answerAddVotes modulus table (argvpOf str) = .ok (answer, after)) :
    Step modulus table str answer after := by
  obtain ⟨⟨f, last⟩, added, done⟩ := bind_ok done
  obtain ⟨input, inputPresent, added⟩ := bind_ok added
  obtain ⟨field, fieldPresent, added⟩ := bind_ok added
  simp only [fieldPresent] at done
  cases found : table.lookup (trimwhitespace field) with
  | none =>
      simp only [found] at added
      cases added
      cases done
      exact .refused rfl
  | some i =>
      simp only [found] at added
      split at added
      · cases added
        cases done
        exact .refused rfl
      · rename_i leaf
        split at added
        · cases added
          cases done
          exact .refused rfl
        · rename_i accepting
          obtain ⟨cursor, tokens, added⟩ := bind_ok added
          cases added
          cases done
          exact .votesAdded selected ⟨field, arg_ok fieldPresent, found⟩ (arg_ok inputPresent)
            (voting_of_guards found leaf accepting) tokens

theorem openRule_refusal {node : Node} {f : Int} (refused : openRule.refusal node = some f) :
    f = 0 ∨ f = -1 := by
  simp only [openRule] at refused
  split at refused
  · simp_all
  · split at refused <;> simp_all

theorem closeRule_refusal {node : Node} {f : Int} (refused : closeRule.refusal node = some f) :
    f = 0 ∨ f = -1 := by
  simp only [closeRule] at refused
  split at refused
  · simp_all
  · split at refused <;> simp_all

theorem answerPolls_step {rule : PollRule} {already notReady : CStr → Response}
    (selected : pollRule (command (trimlastenter str)) = some rule)
    (codes : ∀ {node f}, rule.refusal node = some f → f = 0 ∨ f = -1)
    (failures : ∀ name, (already name).isSuccess = false ∧ (notReady name).isSuccess = false)
    (done : answerPolls table (argvpOf str) (visitPolls rule) already notReady = .ok (answer, after)) :
    Step modulus table str answer after := by
  obtain ⟨field, present, visiting⟩ := bind_ok done
  cases visited : visitPolls rule (table.size + 1) table (.field field) with
  | none => simp [visited] at visiting
  | some result =>
      obtain ⟨f, last⟩ := result
      simp only [visited] at visiting
      obtain ⟨_, rfl, rfl⟩ | ⟨i, found, ⟨refused, rfl⟩ | ⟨allowed, rfl⟩⟩ := visitPolls_cases visited
      · cases visiting
        exact .refused rfl
      · rcases codes refused with rfl | rfl <;> cases visiting
        · exact .refused (failures _).1
        · exact .refused (failures _).2
      · cases visiting
        exact .polls selected (arg_ok present) found allowed visited

/-- The steps of the server. -/
theorem dispatchCode_step (nonempty : 0 < table.size)
    (done : dispatchCode modulus table str = .ok (answer, after)) :
    Step modulus table str answer after := by
  rw [dispatchCode] at done
  cases selected : command (trimlastenter str) with
  | returnWinner => exact returnWinner_step nonempty selected (by rwa [selected] at done)
  | removeVotes => exact removeVotes_step selected (by rwa [selected] at done)
  | countVotes => exact countVotes_step selected (by rwa [selected] at done)
  | closePolls =>
      rw [selected] at done
      exact answerPolls_step (show pollRule _ = some closeRule by rw [selected]; rfl) closeRule_refusal
        (fun _ => ⟨rfl, rfl⟩) done
  | openPolls =>
      rw [selected] at done
      exact answerPolls_step (show pollRule _ = some openRule by rw [selected]; rfl) openRule_refusal
        (fun _ => ⟨rfl, rfl⟩) done
  | addVotes => exact answerAddVotes_step selected (by rwa [selected] at done)
  | addRegion => exact addRegion_step selected (by rwa [selected] at done)
  | invalid =>
      rw [selected] at done
      cases done
      exact .refused rfl

end Inversion

end VoteCounting.Server
