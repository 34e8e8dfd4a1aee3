import VoteCounting.Server.Leaves
import VoteCounting.Server.Refusals

namespace VoteCounting.Server

open Counters CString

/-- The listed names that are held come first and in the order held, and no name comes twice. -/
structure InListOrder (held listed : List CStr) : Prop where
  once : listed.Nodup
  split : ∃ old new, listed = old ++ new ∧ old.Sublist held ∧ ∀ name ∈ new, name ∉ held

/-- A served addition lists the candidates its region has in the order of the region's list. -/
def AddsInOrder (table : Table) (str : CStr) : Prop :=
  command (trimlastenter str) = .addVotes → ∀ region votes, Serves table str region votes →
    InListOrder (names (table.node region).rootCounter) (names votes)

/-- Each region without children counts a candidate in one place. -/
def CandidatesOnce (table : Table) : Prop :=
  ∀ region, table.children region = [] → (names (table.node region).rootCounter).Nodup

section Uniqueness

variable {modulus : Nat} {table after : Table} {str : CStr} {answer : List Response}
  {votes passed ahead : List Counter} {vote : Counter} {cursor : Cursor} {name : CStr}
  {held listed front back : List CStr}

theorem inListOrder_nil : InListOrder held [] :=
  ⟨List.nodup_nil, [], [], rfl, List.nil_sublist _, by simp⟩

theorem sublist_behind (absent : name ∉ front) (sub : (name :: listed).Sublist (front ++ held)) :
    (name :: listed).Sublist held := by
  obtain ⟨early, late, whole, inFront, behind⟩ := List.sublist_append_iff.mp sub
  cases early with
  | nil => exact whole ▸ behind
  | cons first early =>
      obtain ⟨rfl, _⟩ := List.cons.inj whole
      exact absurd (inFront.subset List.mem_cons_self) absent

/-- An item the search finds leaves the list behind its counter to the items after it. -/
theorem inListOrder_cons_found (distinct : (front ++ name :: back).Nodup) :
    InListOrder (front ++ name :: back) (name :: listed) ↔
      InListOrder back listed ∧ ∀ other ∈ listed, other ∉ front ++ [name] := by
  obtain ⟨_, backDistinct, apart⟩ := List.nodup_append.mp distinct
  obtain ⟨absentBack, _⟩ := List.nodup_cons.mp backDistinct
  have absentFront : name ∉ front := fun member => apart name member name List.mem_cons_self rfl
  constructor
  · intro ⟨once, old, new, whole, sub, fresh⟩
    obtain ⟨later, restOnce⟩ := List.nodup_cons.mp once
    cases old with
    | nil =>
        rw [List.nil_append] at whole
        exact absurd (by simp) (fresh name (whole ▸ List.mem_cons_self))
    | cons first old =>
        obtain ⟨rfl, rfl⟩ := List.cons.inj whole
        have behind : old.Sublist back := List.cons_sublist_cons.mp (sublist_behind absentFront sub)
        refine ⟨⟨restOnce, old, new, rfl, behind, fun other member inside => ?_⟩,
          fun other member => ?_⟩
        · exact fresh other member (by simp [inside])
        · have different : other ≠ name := fun same => later (same ▸ member)
          have notFront : other ∉ front := by
            intro inside
            rcases List.mem_append.mp member with isOld | isNew
            · exact apart other inside other (List.mem_cons_of_mem _ (behind.subset isOld)) rfl
            · exact fresh other isNew (List.mem_append_left _ inside)
          simp [different, notFront]
  · intro ⟨⟨once, old, new, whole, sub, fresh⟩, clear⟩
    have later : name ∉ listed := fun member => clear name member (by simp)
    refine ⟨List.nodup_cons.mpr ⟨later, once⟩, name :: old, new, by rw [whole]; rfl, ?_, ?_⟩
    · exact (sub.cons_cons name).trans (List.sublist_append_right _ _)
    · intro other member inside
      have early := clear other (whole ▸ List.mem_append_right _ member)
      have behind := fresh other member
      simp_all

/-- An item the search does not find leaves nothing ahead. -/
theorem inListOrder_cons_missed (absent : name ∉ held) :
    InListOrder held (name :: listed) ↔ listed.Nodup ∧ ∀ other ∈ listed, other ∉ held ++ [name] := by
  constructor
  · intro ⟨once, old, new, whole, sub, fresh⟩
    obtain ⟨later, restOnce⟩ := List.nodup_cons.mp once
    cases old with
    | nil =>
        rw [List.nil_append] at whole
        refine ⟨restOnce, fun other member => ?_⟩
        have different : other ≠ name := fun same => later (same ▸ member)
        have notHeld := fresh other (whole ▸ List.mem_cons_of_mem _ member)
        simp [different, notHeld]
    | cons first old =>
        obtain ⟨rfl, _⟩ := List.cons.inj whole
        exact absurd (sub.subset List.mem_cons_self) absent
  · intro ⟨once, clear⟩
    have later : name ∉ listed := fun member => clear name member (by simp)
    refine ⟨List.nodup_cons.mpr ⟨later, once⟩, [], name :: listed, rfl, List.nil_sublist _, ?_⟩
    intro other member
    rcases List.mem_cons.mp member with rfl | member
    · exact absent
    · exact fun inside => clear other member (by simp [inside])

theorem inListOrder_empty : InListOrder [] listed ↔ listed.Nodup := by
  constructor
  · exact InListOrder.once
  · exact fun once => ⟨once, [], listed, rfl, List.nil_sublist _, by simp⟩

/-- Where the search for an item stops: behind its counter, or behind a new one at the end. -/
theorem names_addVote :
    (∃ front back, names ahead = front ++ vote.name :: back ∧ vote.name ∉ front ∧
      names (addVote modulus passed ahead vote).passed = names passed ++ (front ++ [vote.name]) ∧
      names (addVote modulus passed ahead vote).ahead = back) ∨
    (vote.name ∉ names ahead ∧
      names (addVote modulus passed ahead vote).passed = names passed ++ (names ahead ++ [vote.name]) ∧
      names (addVote modulus passed ahead vote).ahead = []) := by
  induction ahead generalizing passed with
  | nil => exact .inr ⟨by simp, by simp [addVote], rfl⟩
  | cons entry rest ih =>
      rw [addVote]
      split
      · rename_i same
        exact .inl ⟨[], names rest, by simp [same], by simp, by simp [same], rfl⟩
      · rename_i different
        rcases @ih (passed ++ [entry]) with ⟨front, back, whole, absent, before, behind⟩ |
          ⟨absent, before, behind⟩
        · refine .inl ⟨entry.name :: front, back, by simp [whole], ?_, by simp [before], behind⟩
          simp [absent, Ne.symm different]
        · exact .inr ⟨by simp [absent, Ne.symm different], by simp [before], behind⟩

theorem names_addAll_prefix :
    names cursor.entries <+: names (addAll modulus votes cursor).entries := by
  induction votes generalizing cursor with
  | nil => exact List.prefix_rfl
  | cons vote rest ih =>
      refine List.IsPrefix.trans ?_ ih
      rw [addVote_entries, names_append, names_credit, Cursor.entries, names_append]
      split
      · exact List.prefix_rfl
      · rw [← List.append_assoc]
        exact List.prefix_append _ _

/-- An addition keeps the candidates of a list apart exactly where no item comes too late. -/
theorem nodup_addAll_iff (distinct : (names cursor.entries).Nodup) :
    (names (addAll modulus votes cursor).entries).Nodup ↔
      InListOrder (names cursor.ahead) (names votes) ∧
        ∀ name ∈ names votes, name ∉ names cursor.passed := by
  induction votes generalizing cursor with
  | nil => simp [addAll, distinct, inListOrder_nil]
  | cons vote rest ih =>
      obtain ⟨passed, ahead⟩ := cursor
      rw [addAll, List.foldl_cons, ← addAll]
      simp only [Cursor.entries, names_append] at distinct
      rw [names_cons, List.forall_mem_cons]
      rcases @names_addVote modulus passed ahead vote with
        ⟨front, back, whole, absent, before, behind⟩ | ⟨absent, before, behind⟩
      · rw [whole] at distinct ⊢
        have inner := (List.nodup_append.mp distinct).2.1
        have fresh : vote.name ∉ names passed := fun member =>
          (List.nodup_append.mp distinct).2.2 _ member _ (by simp) rfl
        rw [ih (by rw [Cursor.entries, names_append, before, behind]; simpa using distinct),
          before, behind, inListOrder_cons_found inner, and_assoc]
        simp only [List.mem_append, not_or, forall_and, fresh, not_false_eq_true, true_and]
        tauto
      · rw [inListOrder_cons_missed absent]
        by_cases known : vote.name ∈ names passed
        · have twice : ¬ (names (addVote modulus passed ahead vote).entries).Nodup := by
            rw [Cursor.entries, names_append, before, behind]
            intro once
            simp only [List.append_nil, List.nodup_append] at once
            exact once.2.2 _ known vote.name (by simp) rfl
          constructor
          · exact fun once => absurd (once.sublist names_addAll_prefix.sublist) twice
          · exact fun conditions => absurd known conditions.2.1
        · have apart : (names (addVote modulus passed ahead vote).entries).Nodup := by
            rw [Cursor.entries, names_append, before, behind, List.append_nil, ← List.append_assoc]
            refine List.nodup_append.mpr ⟨distinct, List.nodup_singleton _, ?_⟩
            rintro other member last single rfl
            obtain rfl := List.mem_singleton.mp single
            simp [known, absent] at member
          rw [ih apart, before, behind, inListOrder_empty]
          simp only [List.mem_append, not_or, forall_and, known, not_false_eq_true, true_and]
          tauto

theorem dispatchCode_addVotes {region : Nat} {input : CStr}
    (selected : command (trimlastenter str) = .addVotes)
    (named : table.Names (argvpOf str) 1 region) (present : (argvpOf str)[2]? = some input)
    (voting : Voting table region)
    (parsed : parseVotes (makeargv (trimwhitespace input) ',') = .ok votes) :
    dispatchCode modulus table str = .ok ([.success], table.modify region fun node => { node with
      rootCounter := (addAll modulus votes ⟨[], (table.node region).rootCounter⟩).entries
      hasdata := true }) := by
  obtain ⟨field, fieldPresent, found⟩ := named
  have added : addTokens modulus (makeargv (trimwhitespace input) ',')
      ⟨[], (table.node region).rootCounter⟩ = .ok _ := addTokens_of_parsed parsed
  rw [dispatchCode]
  rw [selected]
  simp only [handle, answerAddVotes, addVotes, arg_of_getElem? present, arg_of_getElem? fieldPresent,
    found, voting.leaf, voting.isOpen, voting.notClosed, added, bind, Except.bind, pure, Except.pure,
    ne_eq, not_true_eq_false, ↓reduceIte, Bool.not_true, Bool.or_self, Bool.false_eq_true]

/-- One step keeps candidates apart exactly where it adds in order. -/
theorem CandidatesOnce.step_iff (apart : CandidatesOnce table) (wellFormed : WellFormed table)
    (answered : dispatchCode modulus table str = .ok (answer, after)) :
    CandidatesOnce after ↔ AddsInOrder table str := by
  constructor
  · intro once selected region votes serves
    obtain ⟨input, named, present, voting, parsed, _⟩ := serves
    rw [dispatchCode_addVotes selected named present voting parsed] at answered
    obtain ⟨rfl, rfl⟩ := Prod.mk.inj (Except.ok.inj answered)
    have leaf := once region
    rw [storeVotes_frame.children, Table.node_modify_self voting.inside] at leaf
    exact ((nodup_addAll_iff (by exact apart region voting.leaf)).mp (leaf voting.leaf)).1
  · intro ordered region leaf
    obtain ⟨before, changed⟩ := (dispatchCode_step wellFormed.nonempty answered).at_leaf wellFormed leaf
    generalize (after.node region).rootCounter = list at changed
    cases changed with
    | kept => exact apart region before
    | added selected named present voting parsed =>
        have sorted := ordered selected region _ ⟨_, named, present, voting, parsed, .inl selected⟩
        exact (nodup_addAll_iff (by exact apart region before)).mpr ⟨sorted, by simp⟩
    | removed =>
        rw [names_removeAll]
        exact apart region before

theorem Initial.candidatesOnce (initial : Initial table) : CandidatesOnce table := by
  intro region _
  rw [(initial.untouched region).rootCounter]
  exact List.nodup_nil

end Uniqueness

/-- In every state of a run each childless region counts a candidate in one place exactly where
all served additions list the candidates in the order of the region's list. -/
theorem candidates_once_iff {modulus : Nat} {file : CStr} {history : List Answered} {table : Table}
    (served : Served modulus file history table) :
    (∀ event ∈ history, CandidatesOnce event.before) ∧ CandidatesOnce table ↔
      Along (fun _ => AddsInOrder) history := by
  obtain ⟨start, created, run⟩ := served
  have initial := createDAG_initial created
  clear created
  induction run with
  | nil => simp [initial.candidatesOnce, Run.along_nil]
  | snoc past answered ih =>
      have step := fun once : CandidatesOnce _ =>
        once.step_iff (Run.wellFormed initial.wellFormed past) answered
      rw [Run.along_snoc]
      constructor
      · intro ⟨before, last⟩
        have reached := before _ (List.mem_append_right _ (List.mem_singleton_self _))
        exact ⟨ih.mp ⟨fun event member => before event (List.mem_append_left _ member), reached⟩,
          (step reached).mp last⟩
      · intro ⟨past, ordered⟩
        obtain ⟨before, reached⟩ := ih.mpr past
        refine ⟨fun event member => ?_, (step reached).mpr ordered⟩
        rcases List.mem_append.mp member with earlier | last
        · exact before event earlier
        · obtain rfl := List.mem_singleton.mp last
          exact reached

def twoCandidates : List Answered :=
  [⟨votedTable false [] [], "OP;R".toList, [.success]⟩,
    ⟨votedTable true [] [], "AV;A;X:1,Y:1".toList, [.success]⟩]

theorem candidates_once_iff_sample :
    Served intModulus "R:A".toList twoCandidates (votedTable true [] [⟨['X'], 1⟩, ⟨['Y'], 1⟩]) ∧
      ((∀ event ∈ twoCandidates, CandidatesOnce event.before) ∧
          CandidatesOnce (votedTable true [] [⟨['X'], 1⟩, ⟨['Y'], 1⟩]) ↔
        Along (fun _ => AddsInOrder) twoCandidates) := by
  have served : Served intModulus "R:A".toList twoCandidates
      (votedTable true [] [⟨['X'], 1⟩, ⟨['Y'], 1⟩]) :=
    ⟨votedTable false [] [], by decide,
      Run.of_execute ["OP;R".toList, "AV;A;X:1,Y:1".toList] (by rfl)⟩
  exact ⟨served, candidates_once_iff served⟩

/-- With `X` and `Y` in the list, `Y:2,X:5` makes a second counter for `X`. -/
theorem candidates_not_once : ∃ history table, Served intModulus "R:A".toList history table ∧
    ¬ CandidatesOnce table := by
  refine ⟨_, votedTable true [] [⟨['X'], 1⟩, ⟨['Y'], 3⟩, ⟨['X'], 5⟩],
    ⟨votedTable false [] [], by decide, Run.of_execute
      (["OP;R", "AV;A;X:1,Y:1", "AV;A;Y:2,X:5"].map String.toList) (by rfl)⟩, fun once => ?_⟩
  exact absurd (once 1 rfl) (by decide)

end VoteCounting.Server
