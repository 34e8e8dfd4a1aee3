import VoteCounting.Server.Counting

namespace VoteCounting.Server

open Counters CString

section Scan

variable {entries : List Counter} {entry : Counter} {name : CStr}

def better (best : CStr × Int) (entry : Counter) : CStr × Int :=
  if best.2 < entry.count then (entry.name, entry.count) else best

theorem winnerName_eq : winnerName entries = (entries.foldl better ([], 0)).1 := rfl

theorem foldl_better (entries : List Counter) (best : CStr × Int) :
    best.2 ≤ (entries.foldl better best).2 ∧
      (∀ entry ∈ entries, entry.count ≤ (entries.foldl better best).2) ∧
      (entries.foldl better best = best ∨
        ∃ entry ∈ entries, entries.foldl better best = (entry.name, entry.count)) := by
  induction entries generalizing best with
  | nil => simp
  | cons first rest ih =>
      obtain ⟨grows, bound, origin⟩ := ih (better best first)
      have step : best.2 ≤ (better best first).2 ∧ first.count ≤ (better best first).2 := by
        rw [better]
        split
        · rename_i less
          exact ⟨less.le, le_refl _⟩
        · rename_i notLess
          exact ⟨le_refl _, Int.not_lt.mp notLess⟩
      rw [List.foldl_cons]
      refine ⟨step.1.trans grows, fun entry member => ?_, ?_⟩
      · rcases List.mem_cons.mp member with rfl | later
        · exact step.2.trans grows
        · exact bound entry later
      · rcases origin with same | ⟨entry, member, same⟩
        · rw [same]
          rw [better]
          split
          · exact .inr ⟨first, by simp, rfl⟩
          · exact .inl rfl
        · exact .inr ⟨entry, by simp [member], same⟩

/-- Where candidates are listed once, the scan finds one with the largest total. -/
theorem winnerName_total (unique : (names entries).Nodup) (positive : ∃ name, 0 < total entries name) :
    0 < total entries (winnerName entries) ∧
      ∀ other, total entries other ≤ total entries (winnerName entries) := by
  obtain ⟨_, bound, origin⟩ := foldl_better entries ([], 0)
  have counted : ∀ other, total entries other ≤ (entries.foldl better ([], 0)).2 ∨
      total entries other = 0 := by
    intro other
    by_cases listed : other ∈ names entries
    · obtain ⟨entry, member, rfl⟩ := List.mem_map.mp listed
      rw [total_of_mem unique member]
      exact .inl (bound entry member)
    · exact .inr (total_of_absent listed)
  obtain ⟨name, isPositive⟩ := positive
  have above : 0 < (entries.foldl better ([], 0)).2 := by
    rcases counted name with le | zero <;> omega
  rcases origin with same | ⟨entry, member, same⟩
  · rw [same] at above
    exact absurd above (lt_irrefl 0)
  · have winning : total entries (winnerName entries) = (entries.foldl better ([], 0)).2 := by
      rw [winnerName_eq, same, total_of_mem unique member]
    rw [winning]
    refine ⟨above, fun other => ?_⟩
    rcases counted other with le | zero
    · exact le
    · rw [zero]
      exact above.le

end Scan

/-- A step after which the counts of the root still rank the candidates. -/
structure WinnerSafe (past : List Answered) (table : Table) (str : CStr) : Prop where
  votes : VoteSafe intModulus table str
  counts : command (trimlastenter str) = .countVotes → table.Names (argvpOf str) 1 0 →
    (table.node 0).hasdata = false →
    ∀ name, Fits intModulus (subtreeTotal table (ledger past) 0 name)
  once : command (trimlastenter str) = .returnWinner → settled (table.node 0) = true →
    (∀ i < table.size, table.children i = [] → settled (table.node i) = true) →
    (names (table.node 0).rootCounter).Nodup
  fits : command (trimlastenter str) = .returnWinner → settled (table.node 0) = true →
    (∀ i < table.size, table.children i = [] → settled (table.node i) = true) →
    ∀ name, Fits intModulus (total (table.node 0).rootCounter name +
      (subtreeTotal table (ledger past) 0 name - ledger past 0 name))
  /-- Candidates are listed only where one of them has votes. -/
  positive : command (trimlastenter str) = .returnWinner → settled (table.node 0) = true →
    (∀ i < table.size, table.children i = [] → settled (table.node i) = true) →
    ((table.node 0).hasdata = true ∨ ∃ name, AddedBelow table (Added past) 0 name) →
    ∃ name, 0 < subtreeTotal table (ledger past) 0 name

/-- The counted root lists a positive multiple of the votes of the tree. -/
def Ranked (history : List Answered) (table : Table) : Prop :=
  (table.node 0).hasdata = true → (∀ name, ¬ Added history 0 name) → ∃ times : Int, 0 < times ∧
    ∀ name, total (table.node 0).rootCounter name = times * subtreeTotal table (ledger history) 0 name

section Ranking

variable {history : List Answered} {table after : Table} {str : CStr} {answer : List Response}

theorem subtreeTotal_unbooked {ledger : Nat → CStr → Int} {region : Nat} {name : CStr}
    (none : ∀ i, ledger i name = 0) : subtreeTotal table ledger region name = 0 := by
  apply List.sum_eq_zero
  intro share member
  obtain ⟨i, _, rfl⟩ := List.mem_map.mp member
  exact none i

theorem Books.children_total (books : Books intModulus history table) (region : Nat) (name : CStr) :
    ((table.children region).map fun child => subtreeTotal table (ledger history) child name).sum =
      subtreeTotal table (ledger history) region name - ledger history region name := by
  have whole : subtreeTotal table (ledger history) region name = _ := books.wellFormed.subtreeTotal_eq
  omega

theorem Books.first_count (books : Books intModulus history table)
    (merged : Merged intModulus (ledger history) (Added history) table 0 (table.children 0) after)
    (uncounted : (table.node 0).hasdata = false)
    (fits : ∀ name, Fits intModulus (subtreeTotal table (ledger history) 0 name)) :
    Ranked history after ∧ (names (after.node 0).rootCounter).Nodup := by
  obtain ⟨book, tracked⟩ := merged.book books.wellFormed books.cast (books.book 0) uncounted
  have none := ((books.book 0).empty uncounted).2
  have unique := book.unique none
  refine ⟨fun flag _ => ⟨1, one_pos, fun name => ?_⟩, unique⟩
  have total_eq :
      subtreeTotal after (ledger history) 0 name = subtreeTotal table (ledger history) 0 name :=
    merged.frame.subtreeTotal_eq
  rw [one_mul, total_eq]
  exact (fits_total unique (merged.fit 0)).eq_of_modEq (fits name) (total_eq ▸ tracked flag name)

/-- Every further count adds the votes of the tree once more. -/
theorem Books.further_count (books : Books intModulus history table) (ranked : Ranked history table)
    (merged : Merged intModulus (ledger history) (Added history) table 0 (table.children 0) after)
    (counted : (table.node 0).hasdata = true)
    (fits : ∀ name, Fits intModulus (total (table.node 0).rootCounter name +
      (subtreeTotal table (ledger history) 0 name - ledger history 0
        name))) : Ranked history after := by
  intro _ none
  obtain ⟨times, positive, totals⟩ := ranked counted none
  refine ⟨times + 1, by omega, fun name => ?_⟩
  have unique := merged.unique ((books.book 0).unique none)
  have congruent := merged.totals name
  rw [books.children_total] at congruent
  have exact := (fits_total unique (merged.fit 0)).eq_of_modEq (fits name) congruent
  rw [merged.frame.subtreeTotal_eq, exact, totals,
    books.cast.plain 0 none]
  ring

theorem Ranked.congr (ranked : Ranked history table)
    (rootCounter : (after.node 0).rootCounter = (table.node 0).rootCounter)
    (hasdata : (after.node 0).hasdata = (table.node 0).hasdata)
    (totals : ∀ name, subtreeTotal after (ledger history) 0 name =
      subtreeTotal table (ledger history) 0 name) : Ranked history after := by
  intro flag none
  rw [hasdata] at flag
  obtain ⟨times, positive, same⟩ := ranked flag none
  exact ⟨times, positive, fun name => by rw [rootCounter, totals, same]⟩

theorem VotesBooked.ranked {region : Nat} {delta : CStr → Int} {adds : CStr → Prop} {event : Answered}
    (stored : VotesBooked table region delta adds after) (books : Books intModulus history table)
    (stores : Stores (ledger history) (ledger (history ++ [event])) (Added history)
      (Added (history ++ [event])) region delta adds)
    (ranked : Ranked history table) : Ranked (history ++ [event]) after := by
  intro flag none
  by_cases here : region = 0
  · subst here
    obtain ⟨totals, _, _⟩ := stored.here stores books.cast (books.book 0)
    have leaf : after.children 0 = [] := by rw [stored.frame.children]; exact stored.voting.leaf
    have formed := books.wellFormed.congr stored.frame.size stored.frame.children_eq
    exact ⟨1, one_pos, fun name => by rw [one_mul, totals, subtreeTotal_leaf formed leaf]⟩
  · have node := stored.others 0 (Ne.symm here)
    rw [node] at flag ⊢
    have apart : ¬ Below table.children 0 region ∨ ∀ name, delta name = 0 := by
      rcases stored.fresh with ⟨_, nothing, _⟩ | uncounted
      · exact .inr nothing
      · refine .inl fun below => ?_
        rw [uncounted 0 below (Ne.symm here)] at flag
        cases flag
    obtain ⟨times, positive, totals⟩ := ranked flag fun name isAdded =>
      none name ((stores.added_iff 0 name).mpr (.inl isAdded))
    exact ⟨times, positive, fun name => by
      rw [stores.subtreeTotal_eq books.wellFormed stored.frame apart, totals]⟩

/-- The state of a run in which the root can be trusted. -/
structure Ranking (history : List Answered) (table : Table) : Prop where
  books : Books intModulus history table
  ranked : Ranked history table

theorem Ranking.won (ranking : Ranking history table)
    (merged : Merged intModulus (ledger history) (Added history) table 0 (table.children 0) after)
    (fits : ∀ name, Fits intModulus (total (table.node 0).rootCounter name +
      (subtreeTotal table (ledger history) 0 name - ledger history 0
        name))) : Ranked history after := by
  cases flag : (table.node 0).hasdata with
  | true => exact ranking.books.further_count ranking.ranked merged flag fits
  | false =>
      obtain ⟨empty, none⟩ := (ranking.books.book 0).empty flag
      refine (ranking.books.first_count merged flag fun name => ?_).1
      have fit := fits name
      rwa [empty, ranking.books.cast.plain 0 none, total_nil, zero_add, sub_zero] at fit

theorem Ranking.step (ranking : Ranking history table) (safe : WinnerSafe history table str)
    (answered : dispatchCode intModulus table str = .ok (answer, after)) :
    Ranking (history ++ [⟨table, str, answer⟩]) after := by
  have books := ranking.books
  refine ⟨books.step safe.votes answered, ?_⟩
  have quiet : ∀ {event : Answered}, Silent event → Ranked history after →
      Ranked (history ++ [event]) after := by
    intro event silent kept
    rw [Ranked] at kept ⊢
    rw [silent.ledger_eq, silent.added_eq]
    exact kept
  cases (dispatchCode_step books.wellFormed.nonempty answered).booking safe.votes with
  | idle silent size children same =>
      exact quiet silent (ranking.ranked.congr (same 0).1 (same 0).2
        fun _ => subtreeTotal_congr size children)
  | votes stored booked_eq adds_iff =>
      exact stored.ranked books (stores_of_booked history booked_eq adds_iff) ranking.ranked
  | region silent present =>
      refine quiet silent (ranking.ranked.congr ?_ ?_
        fun _ => subtreeTotal_addChild books.cast books.wellFormed present)
      · exact addChild_proj Node.rootCounter (fun _ _ => rfl) books.wellFormed.nonempty.ne
      · exact addChild_proj Node.hasdata (fun _ _ => rfl) books.wellFormed.nonempty.ne
  | @counted region after silent selected named uncounted counted =>
      have merged := books.merged counted
      by_cases root : region = 0
      · subst root
        exact quiet silent (books.first_count merged uncounted (safe.counts selected named uncounted)).1
      · have outside : ¬ Below table.children region 0 := fun below =>
          root (Nat.le_zero.mp (books.wellFormed.forest.below_le below))
        have node := merged.outside 0 outside
        exact quiet silent (ranking.ranked.congr (by rw [node]) (by rw [node])
          fun _ => merged.frame.subtreeTotal_eq)
  | won silent selected root leaves counted =>
      exact quiet silent (ranking.won (books.merged counted) (safe.fits selected root leaves))

/-- The root has data after a count for the winner if it had data or votes were ever added. -/
theorem Books.root_gains (books : Books intModulus history table)
    (merged : Merged intModulus (ledger history) (Added history) table 0 (table.children 0) after) :
    (after.node 0).hasdata = true ↔
      (table.node 0).hasdata = true ∨ ∃ name, AddedBelow table (Added history) 0 name := by
  rw [merged.gains]
  constructor
  · intro either
    rcases either with flag | ⟨child, held, name, isAdded⟩
    · exact .inl flag
    · exact .inr ⟨name, addedBelow_iff.mpr (.inr ⟨child, held, isAdded⟩)⟩
  · intro either
    rcases either with flag | ⟨name, isAdded⟩
    · exact .inl flag
    · rcases addedBelow_iff.mp isAdded with own | ⟨child, held, below⟩
      · exact .inl ((books.book 0).counted_of_added own)
      · exact .inr ⟨child, held, name, below⟩

/-- After a count for the winner the root lists a positive multiple of every total. -/
theorem Books.root_multiple (books : Books intModulus history table)
    (merged : Merged intModulus (ledger history) (Added history) table 0 (table.children 0) after)
    (ranked : Ranked history after) (flag : (after.node 0).hasdata = true) :
    ∃ times : Int, 0 < times ∧ ∀ name,
      total (after.node 0).rootCounter name = times * subtreeTotal table (ledger history) 0 name := by
  by_cases voted : ∃ other, Added history 0 other
  · obtain ⟨other, isAdded⟩ := voted
    have book := merged.rebook books.wellFormed books.cast (books.book 0)
      ((books.book 0).counted_of_added isAdded)
    refine ⟨1, one_pos, fun name => ?_⟩
    rw [one_mul, book.exact other isAdded, books.cast.subtreeTotal_own books.wellFormed isAdded]
  · obtain ⟨times, positive, totals⟩ := ranked flag (not_exists.mp voted)
    refine ⟨times, positive, fun name => ?_⟩
    rw [totals, merged.frame.subtreeTotal_eq]

/-- After a count for the winner the root lists each candidate once, in the order of the votes
of the tree. -/
theorem Ranking.winner (ranking : Ranking history table) (safe : WinnerSafe history table str)
    (selected : command (trimlastenter str) = .returnWinner) (root : settled (table.node 0) = true)
    (leaves : ∀ i < table.size, table.children i = [] → settled (table.node i) = true)
    (counted : aggregate intModulus table.size table 0 = some after) :
    (∀ name, .winner name = winnerAnswer (after.node 0) →
        0 < subtreeTotal table (ledger history) 0 name ∧
        ∀ other, subtreeTotal table (ledger history) 0 other ≤ subtreeTotal table
          (ledger history) 0 name) ∧
      (.noVotes = winnerAnswer (after.node 0) →
        ∀ name, subtreeTotal table (ledger history) 0 name = 0) := by
  have books := ranking.books
  have merged := books.merged counted
  rw [winnerAnswer]
  split
  · rename_i flag
    refine ⟨fun name same => ?_, fun same => by cases same⟩
    obtain rfl := Response.winner.inj same
    have unique := merged.unique (safe.once selected root leaves)
    obtain ⟨times, positive, totals⟩ := books.root_multiple merged
      (ranking.won merged (safe.fits selected root leaves)) flag
    obtain ⟨some, isPositive⟩ := safe.positive selected root leaves ((books.root_gains merged).mp flag)
    obtain ⟨above, largest⟩ := winnerName_total unique
      ⟨some, by rw [totals]; exact mul_pos positive isPositive⟩
    rw [totals] at above
    refine ⟨(mul_pos_iff_of_pos_left positive).mp above, fun other => ?_⟩
    have bound := largest other
    rw [totals, totals] at bound
    exact le_of_mul_le_mul_left bound positive
  · rename_i flag
    refine ⟨fun name same => (by cases same), fun _ name => ?_⟩
    apply subtreeTotal_eq_zero books.wellFormed books.cast
    intro other isAdded
    exact flag ((books.root_gains merged).mpr (.inr ⟨other, isAdded⟩))

end Ranking

/-- Every winner has the most votes of the tree, and `No votes.` is the answer exactly where
no candidate has a positive total. -/
def WinnersRight (history : List Answered) : Prop :=
  ∀ past event future, history = past ++ event :: future →
    command (trimlastenter event.input) = .returnWinner →
    (∀ name, .winner name ∈ event.output →
      0 < subtreeTotal event.before (ledger past) 0 name ∧
      ∀ other, subtreeTotal event.before (ledger past) 0 other ≤
        subtreeTotal event.before (ledger past) 0 name) ∧
    (.noVotes ∈ event.output → ∀ name, subtreeTotal event.before (ledger past) 0 name ≤ 0)

theorem winners_right (file : CStr) {start table : Table} {history : List Answered}
    (created : createDAG file = some start) (run : Run (dispatchCode intModulus) start history table)
    (safe : Along WinnerSafe history) : WinnersRight history := by
  intro past event future whole selected
  have initial := createDAG_initial created
  subst whole
  obtain ⟨before, after, answered, _⟩ := run.split
  have ranking : Ranking past event.before := by
    refine Run.invariant Ranking ⟨initial.books, fun flag => ?_⟩ ?_ before
      (Run.along_prefix_of_append safe)
    · rw [(initial.untouched 0).hasdata] at flag
      cases flag
    · exact fun _ ranking safe answered => ranking.step safe answered
  have stepSafe := safe past event future rfl
  rcases (dispatchCode_step ranking.books.wellFormed.nonempty answered).of_returnWinner selected with
    ⟨response, failure, same⟩ | ⟨root, leaves, counted, same⟩
  · rw [same]
    refine ⟨fun name member => ?_, fun member => ?_⟩ <;>
      · obtain rfl := List.mem_singleton.mp member
        cases failure
  · rw [same]
    obtain ⟨winner, none⟩ := ranking.winner stepSafe selected root leaves counted
    exact ⟨fun name member => winner name (List.mem_singleton.mp member),
      fun member name => (none (List.mem_singleton.mp member) name).le⟩

def closedTable (stored : List Counter) : Table :=
  ⟨[{ name := ['R'], children := [1], closed := true },
    { name := ['A'], closed := true, rootCounter := stored, hasdata := !stored.isEmpty }]⟩

theorem winners_right_sample : createDAG "R:A".toList = some (votedTable false [] []) ∧
    WinnersRight [⟨votedTable false [] [], "OP;R".toList, [.success]⟩,
      ⟨votedTable true [] [], "AV;A;X:1".toList, [.success]⟩,
      ⟨votedTable true [] [⟨['X'], 1⟩], "CP;R".toList, [.success]⟩,
      ⟨closedTable [⟨['X'], 1⟩], "RW".toList, [.winner ['X']]⟩] := by
  have run : Run (dispatchCode intModulus) (votedTable false [] [])
      [⟨votedTable false [] [], "OP;R".toList, [.success]⟩,
        ⟨votedTable true [] [], "AV;A;X:1".toList, [.success]⟩,
        ⟨votedTable true [] [⟨['X'], 1⟩], "CP;R".toList, [.success]⟩,
        ⟨closedTable [⟨['X'], 1⟩], "RW".toList, [.winner ['X']]⟩] (_ : Table) :=
    Run.of_execute ["OP;R".toList, "AV;A;X:1".toList, "CP;R".toList, "RW".toList] (by rfl)
  have opened : ∀ past table, WinnerSafe past table "OP;R".toList := fun past table =>
    ⟨.of_no_votes (by decide) (by decide), fun counts => (nomatch counts), fun wins => (nomatch wins),
      fun wins => (nomatch wins), fun wins => (nomatch wins)⟩
  have voted : ∀ past, WinnerSafe past (votedTable true [] []) "AV;A;X:1".toList := fun past =>
    ⟨votedTable_safe, fun counts => (nomatch counts), fun wins => (nomatch wins),
      fun wins => (nomatch wins), fun wins => (nomatch wins)⟩
  have closed : ∀ past table, WinnerSafe past table "CP;R".toList := fun past table =>
    ⟨.of_no_votes (by decide) (by decide), fun counts => (nomatch counts), fun wins => (nomatch wins),
      fun wins => (nomatch wins), fun wins => (nomatch wins)⟩
  refine ⟨by decide, winners_right "R:A".toList (by decide) run ?_⟩
  refine Run.along_cons.mpr ⟨opened _ _, Run.along_cons.mpr ⟨voted _, Run.along_cons.mpr
    ⟨closed _ _, Run.along_cons.mpr ⟨?_, Run.along_nil⟩⟩⟩⟩
  refine ⟨.of_no_votes (by decide) (by decide), fun counts => (nomatch counts), fun _ _ _ => by decide,
    fun _ _ _ name => ?_, fun _ _ _ _ => ⟨['X'], by decide⟩⟩
  have empty : ((closedTable [⟨['X'], 1⟩]).node 0).rootCounter = [] := rfl
  rw [empty, total_nil, zero_add]
  by_cases same : ['X'] = name
  · subst same
    decide
  · have unbooked : ∀ event ∈ [(⟨votedTable false [] [], "OP;R".toList, [.success]⟩ : Answered),
        ⟨votedTable true [] [], "AV;A;X:1".toList, [.success]⟩,
        ⟨votedTable true [] [⟨['X'], 1⟩], "CP;R".toList, [.success]⟩], ∀ region,
        booked event region name = 0 := by
      simp only [List.forall_mem_cons]
      refine ⟨fun _ => rfl, fun region => ?_, fun _ => rfl, by simp⟩
      have stored : accepted ⟨votedTable true [] [], "AV;A;X:1".toList, [.success]⟩ region =
          if 1 = region then [⟨['X'], 1⟩] else [] := accepted_of_named ⟨_, rfl, rfl⟩ rfl rfl region
      show total (accepted _ region) name = 0
      rw [stored]
      split <;> simp [total_cons, same]
    have none := fun region => ledger_eq_zero fun event happened => unbooked event happened region
    refine Eq.subst (motive := Fits intModulus) ?_ (fits_zero intModulus)
    rw [subtreeTotal_unbooked none]
    exact (sub_eq_zero.mpr (none 0).symm).symm

/-- The last vote is removed and the root is won by nobody. -/
theorem winners_not_right : ∃ (file : CStr) (start table : Table) (history : List Answered),
    createDAG file = some start ∧ start.names.Nodup ∧
    Run (dispatchCode intModulus) start history table ∧ ¬ WinnersRight history := by
  have done : execute (dispatchCode intModulus) (votedTable false [] [])
    (["OP;R", "AV;A;X:1", "RV;A;X:1", "CP;R", "RW"].map String.toList) = .ok (_, _) := rfl
  refine ⟨"R:A".toList, _, _, _, by decide, by decide, Run.of_execute _ done, fun right => ?_⟩
  have positive := ((right [_, _, _, _] _ [] rfl (by decide)).1 [] (by decide)).1
  exact absurd positive (by decide)

end VoteCounting.Server
