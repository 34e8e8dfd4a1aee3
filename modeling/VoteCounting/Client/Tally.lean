import VoteCounting.Client.Requests

namespace VoteCounting.Client

open Counters CString

/-- The candidates of the lines that are not blank. -/
def ballots (text : List Char) : List CStr :=
  ((getlines text).map fun line => trimwhitespace (strcpy line)).filter (· ≠ [])

/-- The names `count_vote` looks up. -/
def counted (text : List Char) : List CStr :=
  (getlines text).map fun line => trimwhitespaceBuffer (strcpy line)

def Cleared (tally : List Slot) : Prop := ∀ slot ∈ tally, slot.count = 0

/-- Each candidate once, with the number of its ballots, and nothing else. -/
structure Tallies (tally : List Slot) (ballots : List CStr) : Prop where
  once : (names (live tally)).Nodup
  counts : ∀ slot, slot ∈ live tally ↔ slot.name ∈ ballots ∧ slot.count = ballots.count slot.name

/-- No `int` of the tally overflows. -/
def CountsFit (names : List CStr) : Prop := ∀ name, names.count name < 2 ^ 31

/-- The line starts with a byte of its candidate's name. -/
def StartsWithName (line : List Char) : Prop := ∃ c rest, strcpy line = c :: rest ∧ ¬ isspace c

section Tally

variable {tally used rest : List Slot} {text line : List Char} {name : CStr} {items : List CStr}

theorem mem_tally {slot : Slot} (fit : CountsFit items) : slot ∈ creditAll (2 ^ 32) [] (units items) ↔
    slot.name ∈ items ∧ slot.count = items.count slot.name := by
  have one : Fits (2 ^ 32) 1 := by decide
  exact mem_creditAll_units one fun name => fits_int_iff.mpr (fit name)

theorem tally_positive (fit : CountsFit items) :
    ∀ slot ∈ creditAll (2 ^ 32) [] (units items), 0 < slot.count := by
  intro slot member
  obtain ⟨held, count⟩ := (mem_tally fit).mp member
  rw [count]
  exact_mod_cast List.count_pos_iff.mpr held

theorem live_append (positive : ∀ slot ∈ used, 0 < slot.count) (cleared : Cleared rest) :
    live (used ++ rest) = used := by
  rw [live, List.takeWhile_append_of_pos fun slot member => by
    have held := positive slot member
    simpa using (ne_of_gt held : slot.count ≠ 0)]
  have none : rest.takeWhile (·.count ≠ 0) = [] := by
    cases rest with
    | nil => rfl
    | cons slot rest => simp [cleared slot List.mem_cons_self]
  rw [none, List.append_nil]

/-- The search for a slot adds one to the name in the slots in use. -/
theorem placeVote_append (positive : ∀ slot ∈ used, 0 < slot.count) (cleared : Cleared rest) :
    ∃ later, Cleared later ∧ placeVote name (used ++ rest) = credit (2 ^ 32) used name 1 ++ later := by
  induction used with
  | nil =>
      cases rest with
      | nil => exact ⟨[], cleared, rfl⟩
      | cons slot rest =>
          refine ⟨rest, fun other member => cleared other (List.mem_cons_of_mem _ member), ?_⟩
          simp [placeVote, cleared slot List.mem_cons_self, credit]
  | cons slot used ih =>
      have live : slot.count ≠ 0 := ne_of_gt (positive slot List.mem_cons_self)
      obtain ⟨later, laterCleared, placed⟩ :=
        ih fun other member => positive other (List.mem_cons_of_mem _ member)
      rw [List.cons_append, placeVote, if_neg live, credit]
      split
      · exact ⟨rest, cleared, rfl⟩
      · exact ⟨later, laterCleared, by rw [placed, List.cons_append]⟩

/-- Where no count overflows, the slots in use count the names looked up. -/
theorem foldl_placeVote (cleared : Cleared tally) (fit : CountsFit items) :
    ∃ later, Cleared later ∧
      items.foldl (fun tally name => placeVote name tally) tally =
        creditAll (2 ^ 32) [] (units items) ++ later := by
  induction items using List.reverseRecOn with
  | nil => exact ⟨tally, cleared, rfl⟩
  | append_singleton before name ih =>
      have earlierFit : CountsFit before := by
        intro other
        have bound := fit other
        rw [List.count_append] at bound
        omega
      obtain ⟨later, laterCleared, same⟩ := ih earlierFit
      obtain ⟨final, finalCleared, placed⟩ :=
        @placeVote_append _ _ name (tally_positive earlierFit) laterCleared
      have split : units (before ++ [name]) = units before ++ [⟨name, 1⟩] := List.map_append
      refine ⟨final, finalCleared, ?_⟩
      rw [List.foldl_append, same, split, creditAll_append]
      exact placed

theorem leafcounter_eq : leafcounter tally text =
    (counted text).foldl (fun tally name => placeVote name tally) tally := by
  rw [leafcounter, counted, List.foldl_map]
  rfl

theorem live_leafcounter (cleared : Cleared tally) (fit : CountsFit (counted text)) :
    live (leafcounter tally text) = creditAll (2 ^ 32) [] (units (counted text)) := by
  obtain ⟨later, laterCleared, same⟩ := foldl_placeVote cleared fit
  rw [leafcounter_eq, same]
  exact live_append (tally_positive fit) laterCleared

theorem leafcounter_tallies (cleared : Cleared tally) (fit : CountsFit (counted text)) :
    Tallies (leafcounter tally text) (counted text) := by
  have same := live_leafcounter cleared fit
  refine ⟨?_, fun slot => ?_⟩
  · rw [same]
    exact nodup_creditAll List.nodup_nil
  · rw [same]
    exact mem_tally fit

/-- Only behind leading blanks is the name that is looked up not the one in the line. -/
theorem trimwhitespaceBuffer_of_starts {str : CStr} (starts : ∃ c rest, str = c :: rest ∧ ¬ isspace c) :
    trimwhitespaceBuffer str = trimwhitespace str ∧ trimwhitespace str ≠ [] := by
  obtain ⟨c, rest, rfl, visible⟩ := starts
  refine ⟨trimwhitespaceBuffer_of_front (by simpa using visible), ?_⟩
  rw [trimwhitespace, trim, List.dropWhile_cons_of_neg visible]
  intro blank
  exact visible (List.rdropWhile_eq_nil_iff.mp blank c List.mem_cons_self)

theorem starts_of_trimmed {str : CStr} (nonempty : trimwhitespaceBuffer str ≠ [])
    (trimmed : trimwhitespace (trimwhitespaceBuffer str) = trimwhitespaceBuffer str) :
    ∃ c rest, str = c :: rest ∧ ¬ isspace c := by
  have inside : trimwhitespaceBuffer str <+: str := by
    rw [trimwhitespaceBuffer]
    split
    · exact List.prefix_rfl
    · exact trimEnd_sub
  obtain ⟨c, name, whole⟩ := List.exists_cons_of_ne_nil nonempty
  obtain ⟨later, rest⟩ := inside
  refine ⟨c, name ++ later, by rw [← rest, whole, List.cons_append], fun blank => ?_⟩
  have kept := trim_dropWhile (trimwhitespaceBuffer str)
  rw [← trimwhitespace, trimmed, whole, List.dropWhile_cons_of_pos blank] at kept
  have shorter := (List.dropWhile_sublist isspace (l := name)).length_le
  rw [kept, List.length_cons] at shorter
  omega

theorem counted_eq_ballots (starts : ∀ line ∈ getlines text, StartsWithName line) :
    counted text = ballots text := by
  have each :
    ∀ line ∈ getlines text, trimwhitespaceBuffer (strcpy line) = trimwhitespace (strcpy line) ∧
      trimwhitespace (strcpy line) ≠ [] :=
        fun line member => trimwhitespaceBuffer_of_starts (starts line member)
  rw [counted, ballots, List.filter_eq_self.mpr]
  · exact List.map_congr_left fun line member => (each line member).1
  · intro name member
    obtain ⟨line, held, rfl⟩ := List.mem_map.mp member
    simpa using (each line held).2

theorem ballots_trimmed (member : name ∈ ballots text) : name ≠ [] ∧ trimwhitespace name = name := by
  obtain ⟨held, nonempty⟩ := List.mem_filter.mp member
  obtain ⟨line, _, rfl⟩ := List.mem_map.mp held
  exact ⟨by simpa using nonempty, trimwhitespace_trimwhitespace _⟩

end Tally

/-- The tally is that of the lines' candidates exactly where each line starts with its
candidate's name: leading blanks stay in the name, and a blank line is counted. -/
theorem tally_correct_iff {tally : List Slot} (cleared : Cleared tally) (text : List Char) :
    CountsFit (counted text) ∧ Tallies (leafcounter tally text) (ballots text) ↔
      (∀ line ∈ getlines text, StartsWithName line) ∧ CountsFit (ballots text) := by
  constructor
  · intro ⟨fit, right⟩
    have real := leafcounter_tallies cleared fit
    have starts : ∀ line ∈ getlines text, StartsWithName line := by
      intro line member
      have held : trimwhitespaceBuffer (strcpy line) ∈ counted text := List.mem_map_of_mem member
      have slot := (real.counts ⟨_, (counted text).count _⟩).mpr ⟨held, rfl⟩
      obtain ⟨nonempty, trimmed⟩ := ballots_trimmed ((right.counts _).mp slot).1
      exact starts_of_trimmed nonempty trimmed
    exact ⟨starts, counted_eq_ballots starts ▸ fit⟩
  · intro ⟨starts, fit⟩
    rw [← counted_eq_ballots starts] at fit ⊢
    exact ⟨fit, leafcounter_tallies cleared fit⟩

theorem tally_correct_iff_sample :
    CountsFit (counted "X \nY\nX\n".toList) ∧
        Tallies (leafcounter [⟨['Z'], 0⟩] "X \nY\nX\n".toList) (ballots "X \nY\nX\n".toList) ↔
      (∀ line ∈ getlines "X \nY\nX\n".toList, StartsWithName line) ∧
        CountsFit (ballots "X \nY\nX\n".toList) :=
  tally_correct_iff (by simp [Cleared]) _

/-- A blank line is counted as a candidate. -/
theorem tally_not_correct : ∃ (tally : List Slot) (text : List Char), Cleared tally ∧
    ¬ Tallies (leafcounter tally text) (ballots text) := by
  refine ⟨[], "X\n\n".toList, by simp [Cleared], fun right => ?_⟩
  have blank := (right.counts ⟨['\n'], 1⟩).mp (by decide)
  exact absurd blank.1 (by decide)

end VoteCounting.Client
