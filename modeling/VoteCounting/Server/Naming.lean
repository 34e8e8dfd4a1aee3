import VoteCounting.Server.Structure

namespace VoteCounting.Server

open CString

/-- The regions whose name buffers `Open_Polls` or `Close_Polls` may trim when called for `region`:
the children of each region it may mark.  A child is looked up by its trimmed name, and every region
whose name is cut to that is followed here, also where the lookup finds another one first. -/
inductive Trims (rule : PollRule) (table : Table) (region : Nat) : Nat → Prop
  | child {i : Nat} : i ∈ table.children region → Trims rule table region i
  | next {i found j : Nat} : Trims rule table region i → rule.refusal (table.node found) = none →
      trimwhitespaceBuffer (table.node found).name = trimwhitespace (table.node i).name →
      j ∈ table.children found → Trims rule table region j

/-- A request that gives no region the name of another: a new region has a new name, and no name
that may be trimmed meets a name that is there. -/
structure NameSafe (table : Table) (str : CStr) : Prop where
  fresh : command (trimlastenter str) = .addRegion → ∀ parent childname,
    table.Names (argvpOf str) 1 parent → (argvpOf str)[2]? = some childname →
    trimwhitespace childname ∉ table.names
  apart : ∀ rule region, pollRule (command (trimlastenter str)) = some rule →
    table.Names (argvpOf str) 1 region → rule.refusal (table.node region) = none →
    ∀ i j, i < table.size → j < table.size → i ≠ j → Trims rule table region i →
      trimwhitespaceBuffer (table.node i).name ≠ (table.node j).name ∧
      (Trims rule table region j →
        trimwhitespaceBuffer (table.node i).name ≠ trimwhitespaceBuffer (table.node j).name)

/-- Names are distinct, and each region added so far is found by its name. -/
structure NamesKept (history : List Answered) (table : Table) : Prop where
  wellFormed : WellFormed table
  distinct : table.names.Nodup
  added : ∀ event ∈ history, ∀ childname, event.output = [.regionAdded childname] →
    event.before.size < table.size ∧ (table.node event.before.size).name = childname ∧
      trimwhitespaceBuffer childname = childname

section Naming

variable {modulus fuel : Nat} {rule : PollRule} {table state after : Table} {str field : CStr}
  {answer : List Response} {history : List Answered} {region i j : Nat} {f : Int}

theorem nodup_iff_node : table.names.Nodup ↔
    ∀ i j, i < table.size → j < table.size → (table.node i).name = (table.node j).name → i = j := by
  constructor
  · intro distinct i j left right same
    have found := Table.lookup_name distinct left
    rw [same, Table.lookup_name distinct right, Option.some.injEq] at found
    exact found.symm
  · intro unique
    rw [List.Nodup, List.pairwise_iff_getElem]
    intro i j left right earlier same
    simp only [Table.names, List.length_map] at left right
    have equal := unique i j left right (by
      rw [Table.node_eq_getElem left, Table.node_eq_getElem right]
      simpa [Table.names] using same)
    omega

/-- One call renames at most its own region, and calls on children of what it marks. -/
theorem enter_trims (visited : VisitedTable rule table state)
    (kept : ∀ i, ¬ Trims rule table region i → (state.node i).name = (table.node i).name)
    (called : Trims rule table region j) :
    (∀ i, ¬ Trims rule table region i →
      ((enter rule state j).1.node i).name = (table.node i).name) ∧
    ∀ next ∈ (enter rule state j).2, Trims rule table region next := by
  have renamed : ∀ i, ¬ Trims rule table region i →
      ((trimName state (.nameOf j)).2.node i).name = (table.node i).name := by
    intro i apart
    rw [node_trimName]
    split
    · rename_i same
      exact absurd (same ▸ called) apart
    · exact kept i apart
  rw [enter]
  cases found : (trimName state (.nameOf j)).2.lookup (trimName state (.nameOf j)).1 with
  | none => exact ⟨renamed, by simp⟩
  | some k =>
      simp only
      cases verdict : rule.refusal ((trimName state (.nameOf j)).2.node k) with
      | some f => exact ⟨renamed, by simp⟩
      | none =>
          have middle : VisitedTable rule table (trimName state (.nameOf j)).2 :=
            visited.trans visited_trimName
          refine ⟨fun i apart => ?_, fun next member => ?_⟩
          · have sameName : (((trimName state (.nameOf j)).2.modify k rule.mark).node i).name =
                ((trimName state (.nameOf j)).2.node i).name :=
              Table.node_modify_proj Node.name fun node => by rw [rule.writes]
            exact sameName.trans (renamed i apart)
          · have sought : (trimName state (.nameOf j)).1 = trimwhitespace (table.node j).name := by
              rcases (visited.node j).name with same | trimmed
              · simp [trimName, same]
              · simp [trimName, trimmed, trim_trimwhitespaceBuffer]
            have hit := (Table.lookup_some found).2
            rw [sought] at hit
            have allowed : rule.refusal (table.node k) = none := by
              rcases (middle.node k).flags with flags | ⟨allowed, marked⟩
              · rw [← rule.reads flags.1 flags.2]
                exact verdict
              · exact allowed
            have matches' :
                trimwhitespaceBuffer (table.node k).name = trimwhitespace (table.node j).name := by
              rcases (middle.node k).name with same | trimmed
              · rw [← same, hit, trimwhitespaceBuffer_trimwhitespace]
              · rw [← trimmed, hit]
            have held : next ∈ table.children k := by
              rw [Table.children, ← (middle.node k).children]
              exact member
            exact .next called allowed matches' held

/-- The state inside a request for `region`: only names `Trims` allows have changed. -/
structure Trimmed (rule : PollRule) (table : Table) (region : Nat) (state : Table) : Prop where
  visited : VisitedTable rule table state
  kept : ∀ i, ¬ Trims rule table region i → (state.node i).name = (table.node i).name

theorem Trimmed.run (trimmed : Trimmed rule table region state) (called : Trims rule table region j)
    (done : Sweep.run (enter rule) fuel state j = some after) : Trimmed rule table region after := by
  refine Sweep.run_within (I := Trimmed rule table region) (K := Trims rule table region)
    (fun sofar called => ?_) trimmed called done
  obtain ⟨names, calls⟩ := enter_trims sofar.visited sofar.kept called
  exact ⟨⟨sofar.visited.trans visited_enter, names⟩, calls⟩

theorem visitPolls_trimmed (found : table.lookup (trimwhitespace field) = some region)
    (allowed : rule.refusal (table.node region) = none)
    (done : visitPolls rule (fuel + 1) table (.field field) = some (f, after)) :
    Trimmed rule table region after := by
  simp only [visitPolls, trimName, found, allowed, Option.map_eq_some_iff, Prod.mk.injEq] at done
  obtain ⟨last, loop, _, rfl⟩ := done
  refine Loop.invariant (fun _ state => Trimmed rule table region state)
    ⟨visited_mark allowed, fun i _ => ?_⟩ (fun {_ _ child _ _} whole sofar ran => ?_) loop
  · exact Table.node_modify_proj Node.name fun node => by rw [rule.writes]
  · rw [visitPolls_eq_run] at ran
    exact sofar.run (.child (by simp [whole])) ran

theorem Trimmed.name_cases (trimmed : Trimmed rule table region state) (i : Nat) :
    (state.node i).name = (table.node i).name ∨
      (Trims rule table region i ∧ (state.node i).name = trimwhitespaceBuffer (table.node i).name) := by
  by_cases reached : Trims rule table region i
  · rcases (trimmed.visited.node i).name with same | cut
    · exact .inl same
    · exact .inr ⟨reached, cut⟩
  · exact .inl (trimmed.kept i reached)

theorem Trimmed.nodup (trimmed : Trimmed rule table region state) (distinct : table.names.Nodup)
    (apart : ∀ i j, i < table.size → j < table.size → i ≠ j → Trims rule table region i →
      trimwhitespaceBuffer (table.node i).name ≠ (table.node j).name ∧
      (Trims rule table region j →
        trimwhitespaceBuffer (table.node i).name ≠ trimwhitespaceBuffer (table.node j).name)) :
    state.names.Nodup := by
  rw [nodup_iff_node] at distinct ⊢
  rw [trimmed.visited.size]
  intro i j left right same
  by_contra different
  rcases trimmed.name_cases i with keptLeft | ⟨reachedLeft, cutLeft⟩ <;>
    rcases trimmed.name_cases j with keptRight | ⟨reachedRight, cutRight⟩
  · rw [keptLeft, keptRight] at same
    exact different (distinct i j left right same)
  · rw [keptLeft, cutRight] at same
    exact (apart j i right left (Ne.symm different) reachedRight).1 same.symm
  · rw [cutLeft, keptRight] at same
    exact (apart i j left right different reachedLeft).1 same
  · rw [cutLeft, cutRight] at same
    exact (apart i j left right different reachedLeft).2 reachedRight same

theorem addChild_names {parent : Nat} {childname : CStr} :
    (addChild table parent childname).names = table.names ++ [childname] := by
  have kept :
    (table.modify parent fun node =>
        { node with children := node.children ++ [table.size] }).names =
      table.names := by
    apply Table.names_eq_of_node (by simp)
    exact fun i => Table.node_modify_proj Node.name fun _ => rfl
  rw [← kept]
  simp [addChild, Table.names, create]

theorem Step.names (step : Step modulus table str answer after) (safe : NameSafe table str)
    (distinct : table.names.Nodup) : after.names.Nodup ∧ table.size ≤ after.size ∧
      ∀ i < table.size, trimwhitespaceBuffer (table.node i).name = (table.node i).name →
        (after.node i).name = (table.node i).name := by
  have counters : CountersOnly table after → after.names.Nodup ∧ table.size ≤ after.size ∧
      ∀ i < table.size, trimwhitespaceBuffer (table.node i).name = (table.node i).name →
        (after.node i).name = (table.node i).name := by
    intro kept
    rw [Table.names_eq_of_node kept.size kept.name]
    exact ⟨distinct, kept.size.ge, fun i _ _ => kept.name i⟩
  cases step with
  | refused | votesRead => exact counters (.refl table)
  | polls selected present found allowed visited =>
      have trimmed := visitPolls_trimmed found allowed visited
      refine ⟨trimmed.nodup distinct (safe.apart _ _ selected ⟨_, present, found⟩ allowed),
        trimmed.visited.size.ge, fun i _ cut => ?_⟩
      rcases (trimmed.visited.node i).name with same | trimmedName
      · exact same
      · rw [trimmedName, cut]
  | votesAdded => exact counters storeVotes_frame
  | votesRemoved => exact counters storeCounters_frame
  | regionAdded selected named present =>
      have fresh := safe.fresh selected _ _ named present
      refine ⟨?_, by simp, fun i inside _ => ?_⟩
      · rw [addChild_names, List.nodup_append]
        refine ⟨distinct, List.nodup_singleton _, ?_⟩
        rintro a member b last rfl
        exact fresh (List.mem_singleton.mp last ▸ member)
      · exact addChild_proj Node.name (fun _ _ => rfl) (Nat.ne_of_lt inside)
  | votesCounted _ _ _ counted => exact counters (aggregate_frame counted)
  | won _ _ _ counted => exact counters (aggregate_frame counted)

theorem Step.of_regionAdded {childname : CStr}
    (step : Step modulus table str [.regionAdded childname] after) :
    ∃ parent, after = addChild table parent childname ∧ trimwhitespaceBuffer childname = childname := by
  generalize answered : [Response.regionAdded childname] = answer at step
  cases step with
  | refused failure =>
      cases answered
      cases failure
  | votesRemoved _ _ _ _ _ _ =>
      rename_i stopped _ _ _ _ _ _
      cases stopped <;> cases answered
  | regionAdded =>
      cases answered
      exact ⟨_, rfl, trimwhitespaceBuffer_trimwhitespace _⟩
  | polls | votesAdded | votesRead => cases answered
  | votesCounted =>
      rw [countAnswer] at answered
      split at answered <;> cases answered
  | won =>
      rw [winnerAnswer] at answered
      split at answered <;> cases answered

theorem NamesKept.step (named : NamesKept history table) (safe : NameSafe table str)
    (answered : dispatchCode modulus table str = .ok (answer, after)) :
    NamesKept (history ++ [⟨table, str, answer⟩]) after := by
  have step := dispatchCode_step named.wellFormed.nonempty answered
  obtain ⟨distinct, grows, kept⟩ := step.names safe named.distinct
  refine ⟨named.wellFormed.step answered, distinct, fun event member childname output => ?_⟩
  rcases List.mem_append.mp member with past | last
  · obtain ⟨inside, name, trimmed⟩ := named.added event past childname output
    refine ⟨by omega, ?_, trimmed⟩
    rw [kept _ inside (by rw [name, trimmed]), name]
  · obtain rfl := List.mem_singleton.mp last
    simp only at output ⊢
    subst output
    obtain ⟨parent, rfl, trimmed⟩ := step.of_regionAdded
    exact ⟨by simp, by rw [addChild_node_new]; rfl, trimmed⟩

end Naming

/-- Where no request gives a region the name of another, names stay distinct and every added
region is the one found under its name. -/
theorem names_stay_distinct {modulus : Nat} {file : CStr} {start table : Table}
    {history : List Answered} (created : createDAG file = some start) (distinct : start.names.Nodup)
    (run : Run (dispatchCode modulus) start history table) (safe : Along (fun _ => NameSafe) history) :
    table.names.Nodup ∧ ∀ event ∈ history, ∀ childname, event.output = [.regionAdded childname] →
      table.lookup childname = some event.before.size := by
  have named : NamesKept history table := by
    refine Run.invariant NamesKept
      ⟨(createDAG_initial created).wellFormed, distinct, by simp⟩ ?_ run safe
    exact fun _ named safe answered => named.step safe answered
  refine ⟨named.distinct, fun event member childname output => ?_⟩
  obtain ⟨inside, name, _⟩ := named.added event member childname output
  rw [← name]
  exact Table.lookup_name named.distinct inside

theorem names_stay_distinct_sample :
    (Table.names
      ⟨[{ name := ['R'], children := [1, 2] }, { name := ['A'] }, { name := ['B'] }]⟩).Nodup ∧
      Table.lookup ⟨[{ name := ['R'], children := [1, 2] }, { name := ['A'] }, { name := ['B'] }]⟩
        ['B'] =
        some 2 := by
  have run : Run (dispatchCode 0) ⟨[{ name := ['R'], children := [1] }, { name := ['A'] }]⟩
      [⟨⟨[{ name := ['R'], children := [1] }, { name := ['A'] }]⟩, "AR;R;B".toList,
        [.regionAdded ['B']]⟩]
      ⟨[{ name := ['R'], children := [1, 2] }, { name := ['A'] }, { name := ['B'] }]⟩ :=
    Run.of_execute ["AR;R;B".toList] (by rfl)
  have safe : NameSafe ⟨[{ name := ['R'], children := [1] }, { name := ['A'] }]⟩ "AR;R;B".toList := by
    refine ⟨fun _ parent childname _ present => ?_, fun _ _ selected => by cases selected⟩
    cases present
    decide
  have created : createDAG "R:A".toList =
      some ⟨[{ name := ['R'], children := [1] }, { name := ['A'] }]⟩ := by decide
  obtain ⟨distinct, found⟩ := names_stay_distinct created (by decide) run
    (Run.along_cons.mpr ⟨safe, Run.along_nil⟩)
  exact ⟨distinct, found _ (List.mem_singleton_self _) _ rfl⟩

/-- `AR;R;A` is served although there is a region `A`. -/
theorem names_not_distinct : ∃ (file : CStr) (start table : Table) (history : List Answered),
    createDAG file = some start ∧ start.names.Nodup ∧
    Run (dispatchCode 0) start history table ∧ ¬ table.names.Nodup :=
  ⟨"R:A".toList, ⟨[{ name := ['R'], children := [1] }, { name := ['A'] }]⟩,
    ⟨[{ name := ['R'], children := [1, 2] }, { name := ['A'] }, { name := ['A'] }]⟩,
    [⟨⟨[{ name := ['R'], children := [1] }, { name := ['A'] }]⟩, "AR;R;A".toList,
      [.regionAdded ['A']]⟩], by decide, by decide,
        Run.of_execute ["AR;R;A".toList] (by rfl), by decide⟩

end VoteCounting.Server
