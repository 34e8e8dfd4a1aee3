import VoteCounting.Server.Books

namespace VoteCounting.Server

open Counters CString

/-- A step after which every region still counts its subtree. -/
structure CountingSafe (past : List Answered) (table : Table) (str : CStr) : Prop where
  votes : VoteSafe intModulus table str
  counts : command (trimlastenter str) = .countVotes → ∀ region,
    table.Names (argvpOf str) 1 region → (∀ name, ¬ Added past region name) →
    ∀ name, Fits intModulus (subtreeTotal table (ledger past) region name)
  /-- A winner is not asked of a counted root while there are votes below it. -/
  recounts : command (trimlastenter str) = .returnWinner → settled (table.node 0) = true →
    (∀ i < table.size, table.children i = [] → settled (table.node i) = true) →
    (table.node 0).hasdata = true →
    ∀ name, subtreeTotal table (ledger past) 0 name = ledger past 0 name

section Counting

variable {modulus : Nat} {history : List Answered} {table after : Table} {str : CStr}
  {answer : List Response} {region : Nat} {name : CStr}
  {ledgerOf : Nat → CStr → Int} {added : Nat → CStr → Prop}

/-- All votes of the subtree of a region that was voted at are its own. -/
theorem Cast.subtreeTotal_own (cast : Cast ledgerOf added table) (wellFormed : WellFormed table)
    {other : CStr} (isAdded : added region other) :
    subtreeTotal table ledgerOf region name = ledgerOf region name := by
  have none :
      ((table.children region).map fun child =>
        subtreeTotal table ledgerOf child name).sum = 0 := by
    apply List.sum_eq_zero
    intro share member
    obtain ⟨child, held, rfl⟩ := List.mem_map.mp member
    apply subtreeTotal_eq_zero wellFormed cast
    intro candidate ⟨i, below, alsoAdded⟩
    have proper : region ≠ i := by
      have first := (wellFormed.forest.later held).1
      have rest := wellFormed.forest.below_le below
      omega
    exact cast.lone region i other candidate isAdded (.head held below) proper alsoAdded
  rw [wellFormed.subtreeTotal_eq, none, add_zero]

theorem report_exact (wellFormed : WellFormed table) (cast : Cast ledgerOf added table)
    (fit : CountsFit modulus table) (book : BookOf ledgerOf added table region)
    (tracked : Tracked modulus ledgerOf table region) (counted : (table.node region).hasdata = true)
    (fits : (∀ other, ¬ added region other) → Fits modulus (subtreeTotal table ledgerOf region name)) :
    total (table.node region).rootCounter name = subtreeTotal table ledgerOf region name := by
  by_cases voted : ∃ other, added region other
  · obtain ⟨other, isAdded⟩ := voted
    rw [book.exact other isAdded, cast.subtreeTotal_own wellFormed isAdded]
  · have none := not_exists.mp voted
    exact (fits_total (book.unique none) (fit region)).eq_of_modEq (fits none) (tracked counted name)

/-- Every region counts its subtree. -/
structure Counting (history : List Answered) (table : Table) : Prop where
  books : Books intModulus history table
  root : Tracked intModulus (ledger history) table 0

theorem Counting.tracked (counting : Counting history table) (i : Nat) :
    Tracked intModulus (ledger history) table i := by
  by_cases root : i = 0
  · exact root ▸ counting.root
  · exact counting.books.tracked i root

theorem Counting.step (counting : Counting history table) (safe : CountingSafe history table str)
    (answered : dispatchCode intModulus table str = .ok (answer, after)) :
    Counting (history ++ [⟨table, str, answer⟩]) after := by
  have books := counting.books
  refine ⟨books.step safe.votes answered, ?_⟩
  cases (dispatchCode_step books.wellFormed.nonempty answered).booking safe.votes with
  | idle silent size children same =>
      rw [silent.ledger_eq]
      exact counting.root.congr size children (same 0).1 (same 0).2
  | votes stored booked_eq adds_iff =>
      exact stored.tracked books.wellFormed (stores_of_booked history booked_eq adds_iff) books.cast
        (books.book _) counting.root
  | region silent present =>
      rw [silent.ledger_eq]
      exact counting.root.addChild books.cast books.wellFormed present
  | counted silent _ _ uncounted counted =>
      rw [silent.ledger_eq]
      obtain ⟨_, _, _, _, tracked⟩ := books.aggregated (books.merged counted)
      exact tracked 0 (.inr uncounted) (.inr (.inl counting.root))
  | won silent selected root leaves counted =>
      rw [silent.ledger_eq]
      have merged := books.merged counted
      cases flag : (table.node 0).hasdata with
      | false =>
          obtain ⟨_, _, _, _, tracked⟩ := books.aggregated merged
          exact tracked 0 (.inr flag) (.inr (.inl counting.root))
      | true =>
          have idle := safe.recounts selected root leaves flag
          intro _ name
          rw [merged.frame.subtreeTotal_eq]
          have below : ((table.children 0).map
              fun child => subtreeTotal table (ledger history) child name).sum = 0 := by
            have whole : subtreeTotal table (ledger history) 0 name = _ :=
              books.wellFormed.subtreeTotal_eq
            rw [idle name] at whole
            omega
          have totals := merged.totals name
          rw [below, add_zero] at totals
          exact totals.trans (counting.root flag name)

theorem Counting.report (counting : Counting history table) (safe : CountingSafe history table str)
    (answered : dispatchCode intModulus table str = .ok (answer, after))
    (selected : command (trimlastenter str) = .countVotes)
    (named : table.Names (argvpOf str) 1 region) :
    (∀ output, .votes output ∈ answer → ∀ name,
        total output name = subtreeTotal table (ledger history) region name) ∧
      (.noVotes ∈ answer → ∀ name, ¬ AddedBelow table (Added history) region name) := by
  have books := counting.books
  have fits : (∀ other, ¬ Added history region other) →
      ∀ name, Fits intModulus (subtreeTotal table (ledger history) region name) :=
    safe.counts selected region named
  rcases (dispatchCode_step books.wellFormed.nonempty answered).of_countVotes selected named with
    ⟨response, failure, rfl⟩ | ⟨counted, rfl⟩ | ⟨uncounted, counted, rfl⟩
  · refine ⟨fun output member => ?_, fun member => ?_⟩ <;>
      · obtain rfl := List.mem_singleton.mp member
        cases failure
  · refine ⟨fun output member name => ?_, fun member => by simp at member⟩
    have same : output = _ := Response.votes.inj (List.mem_singleton.mp member)
    rw [same]
    exact report_exact books.wellFormed books.cast books.fit (books.book _) (counting.tracked _) counted
      fun none => fits none name
  · have merged := books.merged counted
    obtain ⟨formed, cast, fit, _, _⟩ := books.aggregated merged
    obtain ⟨book, tracked⟩ := merged.book books.wellFormed books.cast (books.book _) uncounted
    rw [countAnswer]
    split
    · rename_i flag
      refine ⟨fun output member name => ?_, fun member => by simp at member⟩
      have same : output = _ := Response.votes.inj (List.mem_singleton.mp member)
      rw [same, ← merged.frame.subtreeTotal_eq]
      apply report_exact formed cast fit book tracked flag
      intro none
      rw [merged.frame.subtreeTotal_eq]
      exact fits none name
    · rename_i flag
      refine ⟨fun output member => by simp at member, fun _ name isAdded => ?_⟩
      rcases addedBelow_iff.mp isAdded with own | ⟨child, held, below⟩
      · exact ((books.book _).empty uncounted).2 name own
      · exact flag (merged.gains.mpr (.inr ⟨child, held, name, below⟩))

/-- Every answer to `Count_Votes` reports, for each candidate, the votes booked in the subtree
of the region, and `No votes.` only where no candidate was added there. -/
def CountsReported (history : List Answered) : Prop :=
  ∀ past event future, history = past ++ event :: future →
    command (trimlastenter event.input) = .countVotes →
    ∀ region, event.before.Names (argvpOf event.input) 1 region →
      (∀ output, .votes output ∈ event.output → ∀ name,
        total output name = subtreeTotal event.before (ledger past) region name) ∧
      (.noVotes ∈ event.output → ∀ name, ¬ AddedBelow event.before (Added past) region name)

end Counting

theorem counts_reported (file : CStr) {start table : Table} {history : List Answered}
    (created : createDAG file = some start) (run : Run (dispatchCode intModulus) start history table)
    (safe : Along CountingSafe history) : CountsReported history := by
  intro past event future whole selected region named
  have initial := createDAG_initial created
  subst whole
  obtain ⟨before, after, answered, _⟩ := run.split
  have counting : Counting past event.before := by
    refine Run.invariant Counting ⟨initial.books, fun flag => ?_⟩ ?_ before
      (Run.along_prefix_of_append safe)
    · rw [(initial.untouched 0).hasdata] at flag
      cases flag
    · exact fun _ counting safe answered => counting.step safe answered
  exact counting.report (safe past event future rfl) answered selected named

/-- The region file `R:A` with votes for `X` at `A`, and the flags both regions have. -/
def votedTable (isOpen : Bool) (cached stored : List Counter) : Table :=
  ⟨[{ name := ['R'], children := [1], isOpen, rootCounter := cached, hasdata := !cached.isEmpty },
    { name := ['A'], isOpen, rootCounter := stored, hasdata := !stored.isEmpty }]⟩

theorem votedTable_safe : VoteSafe intModulus (votedTable true [] []) "AV;A;X:1".toList := by
  constructor
  · intro region votes _ _ above _ _
    match above with
    | 0 => rfl
    | 1 => rfl
    | _ + 2 => rfl
  · intro region votes serves _
    obtain ⟨input, ⟨field, present, found⟩, inputPresent, _, parsed, _⟩ := serves
    cases present
    cases inputPresent
    cases found
    cases parsed
    decide
  · exact fun _ _ _ removed => (nomatch removed)

/-- The leaf and then the root are counted. -/
theorem counts_reported_sample : createDAG "R:A".toList = some (votedTable false [] []) ∧
    CountsReported [⟨votedTable false [] [], "OP;R".toList, [.success]⟩,
      ⟨votedTable true [] [], "AV;A;X:1".toList, [.success]⟩,
      ⟨votedTable true [] [⟨['X'], 1⟩], "CV;A".toList, [.votes [⟨['X'], 1⟩]]⟩,
      ⟨votedTable true [] [⟨['X'], 1⟩], "CV;R".toList, [.votes [⟨['X'], 1⟩]]⟩] := by
  let past : List Answered := [⟨votedTable false [] [], "OP;R".toList, [.success]⟩,
    ⟨votedTable true [] [], "AV;A;X:1".toList, [.success]⟩]
  have run : Run (dispatchCode intModulus) (votedTable false [] [])
      (past ++ [⟨votedTable true [] [⟨['X'], 1⟩], "CV;A".toList, [.votes [⟨['X'], 1⟩]]⟩,
        ⟨votedTable true [] [⟨['X'], 1⟩], "CV;R".toList, [.votes [⟨['X'], 1⟩]]⟩])
      (votedTable true [⟨['X'], 1⟩] [⟨['X'], 1⟩]) :=
    Run.of_execute (["OP;R", "AV;A;X:1", "CV;A", "CV;R"].map String.toList) (by rfl)
  have opened : CountingSafe [] (votedTable false [] []) "OP;R".toList :=
    ⟨.of_no_votes (by decide) (by decide), fun counts => (nomatch counts), fun wins => (nomatch wins)⟩
  have voted : ∀ past, CountingSafe past (votedTable true [] []) "AV;A;X:1".toList := fun past =>
    ⟨votedTable_safe, fun counts => (nomatch counts), fun wins => (nomatch wins)⟩
  have countedLeaf : CountingSafe past (votedTable true [] [⟨['X'], 1⟩]) "CV;A".toList := by
    refine ⟨.of_no_votes (by decide) (by decide), fun _ region named none => ?_, fun wins =>
      (nomatch wins)⟩
    obtain ⟨field, present, found⟩ := named
    cases present
    cases found
    exact absurd ⟨_, List.mem_cons_of_mem _ List.mem_cons_self, rfl, by decide⟩ (none ['X'])
  have countedRoot : CountingSafe
      (past ++ [⟨votedTable true [] [⟨['X'], 1⟩], "CV;A".toList, [.votes [⟨['X'], 1⟩]]⟩])
      (votedTable true [] [⟨['X'], 1⟩]) "CV;R".toList := by
    refine ⟨.of_no_votes (by decide) (by decide), fun _ region named _ name => ?_, fun wins =>
      (nomatch wins)⟩
    obtain ⟨field, present, found⟩ := named
    cases present
    cases found
    change Fits intModulus (0 + (0 + (0 + 0)) + (0 + (total [⟨['X'], 1⟩] name + (0 + 0)) + 0))
    simp only [zero_add, add_zero]
    exact fits_total (by decide) (by decide)
  refine ⟨by decide, counts_reported "R:A".toList (by decide) run ?_⟩
  exact Run.along_cons.mpr ⟨opened, Run.along_cons.mpr ⟨voted _, Run.along_cons.mpr
    ⟨countedLeaf, Run.along_cons.mpr ⟨countedRoot, Run.along_nil⟩⟩⟩⟩

/-- A count is answered from the root's old list after more votes. -/
theorem counts_not_reported : ∃ (file : CStr) (start table : Table) (history : List Answered),
    createDAG file = some start ∧ start.names.Nodup ∧
    Run (dispatchCode intModulus) start history table ∧ ¬ CountsReported history := by
  refine ⟨"R:A".toList, votedTable false [] [], votedTable true [⟨['X'], 1⟩] [⟨['X'], 2⟩],
    [⟨votedTable false [] [], "OP;R".toList, [.success]⟩,
      ⟨votedTable true [] [], "AV;A;X:1".toList, [.success]⟩,
      ⟨votedTable true [] [⟨['X'], 1⟩], "CV;R".toList, [.votes [⟨['X'], 1⟩]]⟩,
      ⟨votedTable true [⟨['X'], 1⟩] [⟨['X'], 1⟩], "AV;A;X:1".toList, [.success]⟩,
      ⟨votedTable true [⟨['X'], 1⟩] [⟨['X'], 2⟩], "CV;R".toList, [.votes [⟨['X'], 1⟩]]⟩],
    by decide, by decide, ?_, fun reported => ?_⟩
  · exact Run.of_execute (["OP;R", "AV;A;X:1", "CV;R", "AV;A;X:1", "CV;R"].map String.toList) (by rfl)
  · have exact := (reported [_, _, _, _] _ [] rfl (by decide) 0 ⟨_, rfl, rfl⟩).1 _
      (List.mem_singleton_self _) ['X']
    exact absurd exact (by decide)

end VoteCounting.Server
