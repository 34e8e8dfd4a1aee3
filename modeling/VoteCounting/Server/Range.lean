import VoteCounting.Server.Gathering

namespace VoteCounting.Server

open Counters

/-- A count no vote list should ever leave. -/
def InRange (count : Int) : Prop := 0 ≤ count ∧ count < 2 ^ 31

def ListInRange (entries : List Counter) : Prop := ∀ entry ∈ entries, InRange entry.count

/-- The counters the search for an item passes. -/
def upTo : List Counter → CStr → List Counter
  | [], _ => []
  | entry :: rest, name => if entry.name = name then [entry] else entry :: upTo rest name

/-- The counters left for the item after it. -/
def beyond : List Counter → CStr → List Counter
  | [], _ => []
  | entry :: rest, name => if entry.name = name then rest else beyond rest name

/-- Each item of an addition leaves its counter in range.  The search for an item starts
after the counter of the item before. -/
def RoomToAdd : List Counter → List Counter → Prop
  | _, [] => True
  | ahead, vote :: rest =>
      InRange ((firstCount ahead vote.name).getD 0 + vote.count) ∧
        RoomToAdd (beyond ahead vote.name) rest

/-- Each item a removal comes to leaves its counter in range. -/
def RoomToRemove (entries votes : List Counter) : Prop :=
  ∀ before vote rest, votes = before ++ vote :: rest → EnoughInTurn 0 entries (before ++ [vote]) →
    remaining 0 entries (before ++ [vote]) vote.name < 2 ^ 31

section Range

variable {modulus : Nat} {entries votes passed ahead : List Counter} {vote : Counter} {name : CStr}
  {cursor : Cursor} {count amount : Int}

theorem fits_of_inRange (inside : InRange count) : Fits intModulus count := by
  obtain ⟨low, high⟩ := inside
  rw [Fits, intModulus, Int.bmod_def]
  split <;> omega

/-- An `int` sum is in range exactly where the integer sum is. -/
theorem inRange_bmod_add (inside : InRange count) (fits : Fits intModulus amount) :
    InRange ((count + amount).bmod intModulus) ↔ InRange (count + amount) := by
  obtain ⟨low, high⟩ := inside
  rw [Fits, intModulus, Int.bmod_def] at fits
  rw [InRange, InRange, intModulus, Int.bmod_def]
  split at fits <;> split <;> omega

theorem listInRange_append (first second : List Counter) :
    ListInRange (first ++ second) ↔ ListInRange first ∧ ListInRange second := by
  simp [ListInRange, or_imp, forall_and]

theorem listInRange_cons (entry : Counter) :
    ListInRange (entry :: entries) ↔ InRange entry.count ∧ ListInRange entries := by
  simp [ListInRange]

theorem upTo_append_beyond : upTo entries name ++ beyond entries name = entries := by
  induction entries with
  | nil => rfl
  | cons entry rest ih =>
      rw [upTo, beyond]
      split
      · rfl
      · rw [List.cons_append, ih]

theorem ListInRange.beyond (fit : ListInRange entries) : ListInRange (beyond entries name) := by
  have whole : upTo entries name ++ Server.beyond entries name = entries := upTo_append_beyond
  rw [← whole, listInRange_append] at fit
  exact fit.2

theorem addVote_ahead : (addVote modulus passed ahead vote).ahead = beyond ahead vote.name := by
  induction ahead generalizing passed with
  | nil => rfl
  | cons entry rest ih =>
      rw [addVote, beyond]
      split
      · rfl
      · exact ih

theorem addVote_inRange_iff (fit : ListInRange ahead) (fits : Fits intModulus vote.count) :
    ListInRange (addVote intModulus passed ahead vote).passed ↔
      ListInRange passed ∧ InRange ((firstCount ahead vote.name).getD 0 + vote.count) := by
  induction ahead generalizing passed with
  | nil => simp [addVote, firstCount, ListInRange, or_imp, forall_and]
  | cons entry rest ih =>
      obtain ⟨inside, restFit⟩ := (listInRange_cons entry).mp fit
      rw [addVote, firstCount]
      split
      · rw [listInRange_append, listInRange_cons, Option.getD_some, inRange_bmod_add inside fits]
        simp [ListInRange]
      · rw [ih restFit, listInRange_append, listInRange_cons]
        simp [ListInRange, inside]

/-- An addition keeps a list in range exactly where there is room for each item. -/
theorem addAll_inRange_iff (fit : ListInRange cursor.ahead)
    (fits : ∀ vote ∈ votes, Fits intModulus vote.count) :
    ListInRange (addAll intModulus votes cursor).entries ↔
      ListInRange cursor.passed ∧ RoomToAdd cursor.ahead votes := by
  induction votes generalizing cursor with
  | nil => simp [addAll, Cursor.entries, listInRange_append, RoomToAdd, fit]
  | cons vote rest ih =>
      have restFit : ListInRange (addVote intModulus cursor.passed cursor.ahead vote).ahead := by
        rw [addVote_ahead]
        exact fit.beyond
      have step := ih restFit fun later member => fits later (by simp [member])
      rw [addVote_ahead, addVote_inRange_iff fit (fits vote (by simp)), and_assoc] at step
      exact step

theorem addVote_exact_of_room (room : Fits modulus ((firstCount ahead vote.name).getD 0 + vote.count)) :
    addVote modulus passed ahead vote = addVote 0 passed ahead vote := by
  induction ahead generalizing passed with
  | nil => rfl
  | cons entry rest ih =>
      rw [addVote, addVote]
      rw [firstCount] at room
      split
      · rename_i same
        rw [if_pos same, Option.getD_some] at room
        have kept : (entry.count + vote.count).bmod modulus = entry.count + vote.count := room
        rw [kept, Int.bmod_zero]
      · rename_i different
        rw [if_neg different] at room
        exact ih room

theorem addAll_exact_of_room (room : RoomToAdd cursor.ahead votes) :
    addAll intModulus votes cursor = addAll 0 votes cursor := by
  induction votes generalizing cursor with
  | nil => rfl
  | cons vote rest ih =>
      rw [RoomToAdd] at room
      rw [addAll, addAll, List.foldl_cons, List.foldl_cons, ← addAll, ← addAll]
      rw [addVote_exact_of_room (fits_of_inRange room.1)]
      apply ih
      rw [addVote_ahead]
      exact room.2

theorem debit_inRange (fit : ListInRange entries) (found : firstCount entries name = some count)
    (room : InRange (count - amount)) : ListInRange (debit intModulus entries name amount) := by
  obtain ⟨before, after, rfl, absent⟩ := firstCount_split found
  rw [listInRange_append, listInRange_cons] at fit
  obtain ⟨earlier, _, later⟩ := fit
  rw [debit_split absent, fits_of_inRange room, listInRange_append, listInRange_cons]
  exact ⟨earlier, room, later⟩

theorem debit_exact (found : firstCount entries name = some count)
    (room : Fits modulus (count - amount)) :
    debit modulus entries name amount = debit 0 entries name amount := by
  obtain ⟨before, after, rfl, absent⟩ := firstCount_split found
  have kept : (count - amount).bmod modulus = count - amount := room
  rw [debit_split absent, debit_split absent, kept, Int.bmod_zero]

theorem remaining_zero {before : List Counter} :
    remaining 0 entries before name = (firstCount entries name).getD 0 - total before name := by
  rw [remaining, Int.bmod_zero]

theorem RoomToRemove.tail (room : RoomToRemove entries (vote :: votes))
    (present : vote.name ∈ names entries) (enough : vote.count ≤ remaining 0 entries [] vote.name) :
    RoomToRemove (debit 0 entries vote.name vote.count) votes := by
  intro before item rest whole inTurn
  rw [remaining_debit present]
  exact room (vote :: before) item rest (by simp [whole])
    ((enoughInTurn_cons present).mpr ⟨enough, inTurn⟩)

theorem removeAll_inRange (fit : ListInRange entries)
    (present : ∀ vote ∈ votes, vote.name ∈ names entries)
    (room : RoomToRemove entries votes) : ListInRange (removeAll intModulus votes entries).1 := by
  induction votes generalizing entries with
  | nil => exact fit
  | cons vote rest ih =>
      have head : vote.name ∈ names entries := present vote (by simp)
      obtain ⟨count, found⟩ := Option.isSome_iff_exists.mp (firstCount_isSome.mpr head)
      rw [removeAll, found, Option.getD_some]
      split
      · exact fit
      · rename_i enough
        have covered : vote.count ≤ remaining 0 entries [] vote.name := by
          rw [remaining_zero, found, total_nil, sub_zero, Option.getD_some]
          exact Int.not_lt.mp enough
        have below := room [] vote rest rfl
          ((enoughInTurn_cons head).mpr ⟨covered, by intro before; simp⟩)
        rw [remaining_zero, found, Option.getD_some] at below
        have inside : InRange (count - vote.count) := by
          simp only [List.nil_append, total_cons, total_nil, if_pos, add_zero] at below
          exact ⟨by omega, below⟩
        have exact := debit_exact found (fits_of_inRange inside)
        refine ih (debit_inRange fit found inside) (fun item member => ?_) ?_
        · simpa using present item (by simp [member])
        · rw [exact]
          exact room.tail head covered

theorem total_nonneg (positive : ∀ vote ∈ votes, 0 ≤ vote.count) : 0 ≤ total votes name := by
  induction votes with
  | nil => exact Int.le_refl 0
  | cons vote rest ih =>
      have first := positive vote (by simp)
      have later := ih fun item member => positive item (by simp [member])
      rw [total_cons]
      split <;> omega

/-- No removal of positive amounts leaves the range. -/
theorem roomToRemove_of_positive (fit : ListInRange entries)
    (positive : ∀ vote ∈ votes, 0 < vote.count) :
    RoomToRemove entries votes := by
  intro before vote rest whole _
  have taken : 0 ≤ total (before ++ [vote]) vote.name := by
    refine total_nonneg fun item member => (positive item ?_).le
    rw [whole]
    rcases List.mem_append.mp member with earlier | last
    · exact List.mem_append_left _ earlier
    · exact List.mem_append_right _ (by simp [List.mem_singleton.mp last])
  have held : (firstCount entries vote.name).getD 0 < 2 ^ 31 := by
    cases found : firstCount entries vote.name with
    | none => norm_num
    | some count =>
        obtain ⟨entry, member, rfl⟩ := mem_of_firstCount found
        exact (fit entry member).2
  rw [remaining_zero]
  omega

end Range

end VoteCounting.Server
