import VoteCounting.Data.Run
import VoteCounting.Recitations.DeepCopy

namespace VoteCounting.Recitations.Links

open Buffer
open DeepCopy (Bytes Kind)

/-- An entry that `readdir` returns, with the file it names. -/
structure Entry where
  name : CStr
  kind : Kind
  ino : Nat
deriving DecidableEq, Repr

def Entry.Skipped (entry : Entry) : Prop :=
  entry.kind = .directory ∨ entry.name = ".".toList ∨ entry.name = "..".toList

instance : DecidablePred Entry.Skipped := fun _ => inferInstanceAs (Decidable (_ ∨ _ ∨ _))

/-- The files by their numbers, and the names in each directory.  The next file created gets the
number `next`. -/
structure Files where
  content : Nat → Bytes
  dir : CStr → CStr → Option Nat
  next : Nat

/-- The two open files, each with its offset. -/
structure Descriptors where
  fd : Nat
  offset : Nat := 0
  fd2 : Nat
  offset2 : Nat := 0
deriving DecidableEq, Repr

/-- `deepCopy` between two calls, with what `readdir` has not returned. -/
structure Copying where
  entries : List Entry
  descriptors : Option Descriptors := none
  buff : Bytes
  files : Files

inductive Turn where
  | readdir
  | read (len : Nat)
deriving DecidableEq, Repr

/-- The file goes on, and the buffer is not filled. -/
def Turn.Short : Turn → Prop
  | .readdir => False
  | .read len => 0 < len ∧ len < 1024

inductive Halt where
  | blocked
  | finished
deriving DecidableEq, Repr

def Files.name (files : Files) (directory name : CStr) (ino : Nat) : Files :=
  let names := Function.update (files.dir directory) name (some ino)
  { files with dir := Function.update files.dir directory names }

/-- `link` fails where the name is taken. -/
def link (new : CStr) (files : Files) (entry : Entry) : Files :=
  match files.dir new entry.name with
  | some _ => files
  | none => files.name new entry.name entry.ino

def shallowCopy (old : List Entry) (new : CStr) (files : Files) : Files :=
  old.foldl (fun files entry => if entry.Skipped then files else link new files entry) files

/-- `open` with `O_CREAT`, for writing. -/
def create (new : CStr) (files : Files) (entry : Entry) : Nat × Files :=
  match files.dir new entry.name with
  | some ino => (ino, files)
  | none =>
      let named := files.name new entry.name files.next
      let content := Function.update files.content files.next []
      (files.next, { named with content, next := files.next + 1 })

/-- A round of the loop over a file. -/
def Copying.round (copying : Copying) (own : Descriptors) (len : Nat) : Copying :=
  let rest := (copying.files.content own.fd).drop own.offset
  let buff := fill copying.buff (rest.take len)
  -- `sizeof(buff)` bytes are written, not `len`
  let written := write (copying.files.content own.fd2) own.offset2 buff
  { copying with
    buff
    descriptors := some { own with
      offset := own.offset + len
      offset2 := own.offset2 + buff.length }
    files := { copying.files with
      content := Function.update copying.files.content own.fd2 written } }

/-- The files of the next entry are opened. -/
def Copying.enter (copying : Copying) (new : CStr) (entry : Entry) (entries : List Entry) : Copying :=
  let opened := create new copying.files entry
  { entries
    descriptors := some { fd := entry.ino, fd2 := opened.1 }
    buff := fill copying.buff [0]
    files := opened.2 }

/-- A call of `readdir` and what follows it, or a round of the loop over a file.  A `read` returns
some of the bytes there are, and nothing at the end. -/
def step (new : CStr) (copying : Copying) : Turn → Except Halt (Unit × Copying)
  | .readdir =>
      match copying.descriptors, copying.entries with
      | some _, _ => .error .blocked
      | none, [] => .error .finished
      | none, entry :: entries =>
          if entry.Skipped then
            .ok ((), { copying with entries, buff := fill copying.buff [0] })
          else .ok ((), copying.enter new entry entries)
  | .read len =>
      match copying.descriptors with
      | none => .error .blocked
      | some own =>
          let rest := (copying.files.content own.fd).drop own.offset
          if rest = [] ∧ len = 0 then .ok ((), { copying with descriptors := none })
          else if 0 < len ∧ len ≤ min 1024 rest.length then .ok ((), copying.round own len)
          else .error .blocked

/-- `main` after its first call. -/
def shallowCopied (old : List Entry) (new : CStr) (files : Files) : Copying :=
  let buff := List.replicate 1024 0
  { entries := old, buff, files := shallowCopy old new files }

def Copying.Finished (copying : Copying) : Prop :=
  copying.entries = [] ∧ copying.descriptors = none

/-- What one call does. -/
inductive Moved (new : CStr) (copying : Copying) : Turn → Copying → Prop
  | skip {entry : Entry} {entries : List Entry} (closed : copying.descriptors = none)
      (next : copying.entries = entry :: entries) (skipped : entry.Skipped) :
      Moved new copying .readdir { copying with entries, buff := fill copying.buff [0] }
  | enter {entry : Entry} {entries : List Entry} (closed : copying.descriptors = none)
      (next : copying.entries = entry :: entries) (kept : ¬ entry.Skipped) :
      Moved new copying .readdir (copying.enter new entry entries)
  | leave {own : Descriptors} (opened : copying.descriptors = some own)
      (ended : (copying.files.content own.fd).length ≤ own.offset) :
      Moved new copying (.read 0) { copying with descriptors := none }
  | round {own : Descriptors} {len : Nat} (opened : copying.descriptors = some own)
      (positive : 0 < len) (few : len ≤ 1024)
      (inside : own.offset + len ≤ (copying.files.content own.fd).length) :
      Moved new copying (.read len) (copying.round own len)

section Steps

variable {new : CStr} {copying after : Copying} {turn : Turn} {output : Unit}

theorem step_moved (done : step new copying turn = .ok (output, after)) :
    Moved new copying turn after := by
  cases turn with
  | readdir =>
      rw [step] at done
      split at done
      · cases done
      · cases done
      · split at done
        · cases done
          exact .skip ‹_› ‹_› ‹_›
        · cases done
          exact .enter ‹_› ‹_› ‹_›
  | read len =>
      rw [step] at done
      split at done
      · cases done
      · simp only [List.drop_eq_nil_iff, List.length_drop] at done
        split at done
        · rename_i ended
          cases done
          rw [ended.2]
          exact .leave ‹_› ended.1
        · split at done
          · cases done
            exact .round ‹_› (by omega) (by omega) (by omega)
          · cases done

theorem Moved.step (moved : Moved new copying turn after) :
    step new copying turn = .ok ((), after) := by
  cases moved with
  | skip closed next skipped => simp only [Links.step, closed, next, skipped, if_true]
  | enter closed next kept => simp only [Links.step, closed, next, kept, if_false]
  | leave opened ended =>
      simp only [Links.step, opened, List.drop_eq_nil_iff, ended, and_self, if_true]
  | round opened positive few inside =>
      simp only [Links.step, opened, List.drop_eq_nil_iff, List.length_drop]
      rw [if_neg (by omega), if_pos (by omega)]

/-- Until everything is copied, some call returns. -/
theorem exists_moved (unfinished : ¬ copying.Finished) :
    ∃ turn after, Moved new copying turn after := by
  cases opened : copying.descriptors with
  | some files =>
      by_cases ended : (copying.files.content files.fd).length ≤ files.offset
      · exact ⟨.read 0, _, .leave opened ended⟩
      · exact ⟨.read 1, _, .round opened (by omega) (by omega) (by omega)⟩
  | none =>
      cases next : copying.entries with
      | nil => exact absurd ⟨next, opened⟩ unfinished
      | cons entry entries =>
          by_cases skipped : entry.Skipped
          · exact ⟨.readdir, _, .skip opened next skipped⟩
          · exact ⟨.readdir, _, .enter opened next skipped⟩

end Steps

section Names

variable {old : List Entry} {entry : Entry} {new name : CStr} {files : Files} {ino : Nat}

theorem link_content : (link new files entry).content = files.content := by
  rw [link]
  split <;> rfl

theorem link_own (free : files.dir new entry.name = none) :
    (link new files entry).dir new entry.name = some entry.ino := by
  simp [link, free, Files.name]

theorem link_other (other : name ≠ entry.name) :
    (link new files entry).dir new name = files.dir new name := by
  rw [link]
  split
  · rfl
  · simp [Files.name, other]

theorem shallowCopy_content : (shallowCopy old new files).content = files.content := by
  rw [shallowCopy]
  induction old generalizing files with
  | nil => rfl
  | cons first rest ih =>
      rw [List.foldl_cons, ih]
      split
      · rfl
      · exact link_content

theorem shallowCopy_other (others : name ∉ old.map Entry.name) :
    (shallowCopy old new files).dir new name = files.dir new name := by
  rw [shallowCopy]
  induction old generalizing files with
  | nil => rfl
  | cons first rest ih =>
      rw [List.map_cons, List.mem_cons, not_or] at others
      rw [List.foldl_cons, ih others.2]
      split
      · rfl
      · exact link_other others.1

/-- Each file gets its second name. -/
theorem shallowCopy_linked (distinct : (old.map Entry.name).Nodup)
    (free : ∀ entry ∈ old, ¬ entry.Skipped → files.dir new entry.name = none) :
    ∀ entry ∈ old, ¬ entry.Skipped →
      (shallowCopy old new files).dir new entry.name = some entry.ino := by
  induction old generalizing files with
  | nil => simp
  | cons first rest ih =>
      rw [List.map_cons, List.nodup_cons] at distinct
      obtain ⟨own, others⟩ := List.forall_mem_cons.mp free
      have step : shallowCopy (first :: rest) new files =
          shallowCopy rest new (if first.Skipped then files else link new files first) := rfl
      rw [step]
      refine List.forall_mem_cons.mpr ⟨fun kept => ?_, ih distinct.2 fun entry held kept => ?_⟩
      · rw [shallowCopy_other distinct.1, if_neg kept, link_own (own kept)]
      · have other : entry.name ≠ first.name := fun same =>
          distinct.1 (same ▸ List.mem_map_of_mem held)
        split
        · exact others entry held kept
        · rw [link_other other, others entry held kept]

end Names

section Runs

variable {old : List Entry} {entry : Entry} {new : CStr} {content : Nat → Bytes}
  {copying after : Copying} {turn : Turn} {files : Files}
  {history : List (Event Copying Turn Unit)}

/-- Every file is what it was, and an open one has been copied onto itself in whole buffers. -/
structure Intact (old : List Entry) (new : CStr) (content : Nat → Bytes) (copying : Copying) :
    Prop where
  buff : copying.buff.length = 1024
  same : copying.files.content = content
  linked : ∀ entry ∈ copying.entries, ¬ entry.Skipped →
    copying.files.dir new entry.name = some entry.ino
  opened : ∀ files, copying.descriptors = some files → files.fd2 = files.fd ∧
    files.offset2 = files.offset ∧ 1024 ∣ files.offset ∧
    files.offset ≤ (content files.fd).length ∧ ∃ entry ∈ old, ¬ entry.Skipped ∧ entry.ino = files.fd
  seen : ∃ done, old = done ++ copying.entries ∧ ∀ entry ∈ done, ¬ entry.Skipped →
    1024 ∣ (content entry.ino).length ∨
      ∃ files, copying.descriptors = some files ∧ files.fd = entry.ino

/-- The reader of a file has fallen behind its writer. -/
def Overrun (copying : Copying) : Prop :=
  copying.buff.length = 1024 ∧ ∃ files, copying.descriptors = some files ∧ files.fd2 = files.fd ∧
    files.offset < files.offset2 ∧ files.offset2 ≤ (copying.files.content files.fd).length

theorem shallowCopied_intact (distinct : (old.map Entry.name).Nodup)
    (free : ∀ entry ∈ old, ¬ entry.Skipped → files.dir new entry.name = none) :
    Intact old new files.content (shallowCopied old new files) where
  buff := List.length_replicate
  same := shallowCopy_content
  linked := shallowCopy_linked distinct free
  opened _ opened := by cases opened
  seen := ⟨[], rfl, by simp⟩

theorem length_buff {len : Nat} (rest : Bytes) (size : copying.buff.length = 1024) (few : len ≤ 1024) :
    (fill copying.buff (rest.take len)).length = 1024 := by
  rw [length_fill, List.length_take, size]
  omega

theorem length_cleared (size : copying.buff.length = 1024) : (fill copying.buff [0]).length = 1024 := by
  rw [length_fill, size]
  rfl

/-- A round on one file that is both read and written; a short one leaves the reader behind. -/
theorem round_overrun {own : Descriptors} {len : Nat} (size : copying.buff.length = 1024)
    (same : own.fd2 = own.fd) (few : len ≤ 1024)
    (behind : own.offset + len < own.offset2 + 1024)
    (inside : own.offset2 ≤ (copying.files.content own.fd).length) :
    Overrun (copying.round own len) := by
  have length := length_buff ((copying.files.content own.fd).drop own.offset) size few
  refine ⟨length, _, rfl, same, ?_, ?_⟩
  · simp only [length]
    exact behind
  · simp only [Copying.round, same, Function.update_self]
    exact le_length_write inside

theorem Overrun.step (overrun : Overrun copying) (moved : Moved new copying turn after) :
    Overrun after := by
  obtain ⟨size, own, opened, same, behind, inside⟩ := overrun
  cases moved with
  | skip closed | enter closed =>
      rw [closed] at opened
      cases opened
  | leave other ended =>
      rw [other] at opened
      cases opened
      omega
  | round other positive few within =>
      rw [other] at opened
      cases opened
      exact round_overrun size same few (by omega) inside

/-- A round with a whole buffer writes what it has read. -/
theorem round_whole {own : Descriptors} (size : copying.buff.length = 1024)
    (twice : own.fd2 = own.fd) (level : own.offset2 = own.offset)
    (inside : own.offset + 1024 ≤ (copying.files.content own.fd).length) :
    ∃ buff, buff.length = 1024 ∧ copying.round own 1024 = { copying with
      buff
      descriptors := some { own with
        offset := own.offset + 1024
        offset2 := own.offset2 + 1024 } } := by
  let rest := (copying.files.content own.fd).drop own.offset
  have length : (rest.take 1024).length = 1024 := by
    rw [List.length_take, List.length_drop]
    omega
  have exact_block : fill copying.buff (rest.take 1024) = rest.take 1024 :=
    fill_exact (by rw [size, length])
  refine ⟨rest.take 1024, length, ?_⟩
  rw [Copying.round, exact_block, twice, level, write_own, Function.update_eq_self, length]

/-- What is still to be read, with the calls that open and close the files. -/
def Copying.left (copying : Copying) (content : Nat → Bytes) : Nat :=
  (copying.entries.map fun entry => (content entry.ino).length + 2).sum +
    match copying.descriptors with
    | none => 0
    | some files => (content files.fd).length - files.offset + 1

theorem Intact.keeps_skip {entries : List Entry} (intact : Intact old new content copying)
    (closed : copying.descriptors = none) (next : copying.entries = entry :: entries)
    (skipped : entry.Skipped) :
    let after := { copying with entries, buff := fill copying.buff [0] }
    Intact old new content after ∧ after.left content < copying.left content := by
  obtain ⟨size, same, linked, opened, done, split, seen⟩ := intact
  refine ⟨⟨length_cleared size, same, ?_, opened, done ++ [entry], by simp [split, next], ?_⟩, ?_⟩
  · exact fun other held => linked other (next ▸ List.mem_cons_of_mem _ held)
  · intro other held kept
    rcases List.mem_append.mp held with earlier | last
    · exact seen other earlier kept
    · rw [List.mem_singleton.mp last] at kept
      exact absurd skipped kept
  · simp [Copying.left, next, closed]

/-- The name is there, so the file itself is opened for writing. -/
theorem Intact.enter_eq {entries : List Entry} (intact : Intact old new content copying)
    (next : copying.entries = entry :: entries) (kept : ¬ entry.Skipped) :
    copying.enter new entry entries =
      ⟨entries, some { fd := entry.ino, fd2 := entry.ino }, fill copying.buff [0], copying.files⟩ := by
  have there := intact.linked entry (next ▸ List.mem_cons_self) kept
  simp only [Copying.enter, create, there]

theorem Intact.keeps_enter {entries : List Entry} (intact : Intact old new content copying)
    (closed : copying.descriptors = none) (next : copying.entries = entry :: entries)
    (kept : ¬ entry.Skipped) :
    let after := copying.enter new entry entries
    Intact old new content after ∧ after.left content < copying.left content := by
  intro after
  have entered : after = _ := intact.enter_eq next kept
  obtain ⟨size, same, linked, opened, done, split, seen⟩ := intact
  rw [entered]
  refine ⟨⟨length_cleared size, same, ?_, ?_, done ++ [entry], by simp [split, next], ?_⟩, ?_⟩
  · exact fun other held => linked other (next ▸ List.mem_cons_of_mem _ held)
  · intro files place
    cases place
    exact ⟨rfl, rfl, dvd_zero 1024, Nat.zero_le _, entry, by simp [split, next], kept, rfl⟩
  · intro other held kept
    rcases List.mem_append.mp held with earlier | last
    · rcases seen other earlier kept with whole | ⟨files, place, _⟩
      · exact .inl whole
      · rw [closed] at place
        cases place
    · rw [List.mem_singleton.mp last]
      exact .inr ⟨_, rfl, rfl⟩
  · simp only [Copying.left, next, closed, List.map_cons, List.sum_cons]
    omega

/-- Every file met so far is whole buffers long, but for the open one. -/
theorem Intact.seen_own {own : Descriptors} (intact : Intact old new content copying)
    (opened : copying.descriptors = some own) :
    ∃ done, old = done ++ copying.entries ∧ ∀ entry ∈ done, ¬ entry.Skipped →
      1024 ∣ (content entry.ino).length ∨ own.fd = entry.ino := by
  obtain ⟨done, split, seen⟩ := intact.seen
  refine ⟨done, split, fun entry earlier kept => ?_⟩
  rcases seen entry earlier kept with whole | ⟨files, there, file⟩
  · exact .inl whole
  · obtain rfl : own = files := Option.some.inj (opened.symm.trans there)
    exact .inr file

theorem Intact.keeps_leave {own : Descriptors} (intact : Intact old new content copying)
    (opened : copying.descriptors = some own)
    (ended : (copying.files.content own.fd).length ≤ own.offset) :
    let after := { copying with descriptors := none }
    Intact old new content after ∧ after.left content < copying.left content := by
  obtain ⟨_, _, multiple, inside, _⟩ := intact.opened own opened
  obtain ⟨done, split, seen⟩ := intact.seen_own opened
  rw [intact.same] at ended
  have complete : 1024 ∣ (content own.fd).length := Nat.le_antisymm inside ended ▸ multiple
  refine ⟨⟨intact.buff, intact.same, intact.linked, fun files closed => by (cases closed), done, split,
    ?_⟩, ?_⟩
  · intro other earlier kept
    rcases seen other earlier kept with whole | file
    · exact .inl whole
    · exact .inl (file ▸ complete)
  · simp [Copying.left, opened]

theorem Intact.keeps_round {own : Descriptors} (intact : Intact old new content copying)
    (opened : copying.descriptors = some own)
    (inside : own.offset + 1024 ≤ (copying.files.content own.fd).length) :
    let after := copying.round own 1024
    Intact old new content after ∧ after.left content < copying.left content := by
  intro after
  obtain ⟨twice, level, multiple, _, entry, held, kept, ino⟩ := intact.opened own opened
  obtain ⟨done, split, seen⟩ := intact.seen_own opened
  obtain ⟨buff, length, result⟩ := round_whole intact.buff twice level inside
  have written : after = _ := result
  rw [intact.same] at inside
  rw [written]
  refine ⟨⟨length, intact.same, intact.linked, ?_, done, split, ?_⟩, ?_⟩
  · intro files there
    cases there
    exact ⟨twice, by simp [level], Dvd.dvd.add multiple (dvd_refl 1024), inside, entry, held, kept,
      ino⟩
  · intro other earlier kept
    rcases seen other earlier kept with whole | file
    · exact .inl whole
    · exact .inr ⟨_, rfl, file⟩
  · simp only [Copying.left, opened]
    omega

/-- Where a read fills the buffer, nothing changes, and less is left. -/
theorem Intact.keeps (intact : Intact old new content copying) (moved : Moved new copying turn after)
    (whole : ¬ turn.Short) : Intact old new content after ∧ after.left content < copying.left content := by
  cases moved with
  | skip closed next skipped => exact intact.keeps_skip closed next skipped
  | enter closed next kept => exact intact.keeps_enter closed next kept
  | leave opened ended => exact intact.keeps_leave opened ended
  | @round own len opened positive few inside =>
      obtain rfl : len = 1024 := by
        rw [Turn.Short] at whole
        omega
      exact intact.keeps_round opened inside

/-- After a read that does not fill the buffer, more has been written than read. -/
theorem Intact.falls_behind (intact : Intact old new content copying)
    (moved : Moved new copying turn after) (short : turn.Short) : Overrun after := by
  cases moved with
  | skip | enter => cases short
  | leave => exact absurd short.1 (lt_irrefl 0)
  | @round own len place positive few inside =>
      obtain ⟨twice, level, _⟩ := intact.opened own place
      have less : len < 1024 := short.2
      exact round_overrun intact.buff twice few (by omega) (by omega)

/-- Where all files come in whole buffers, the copy can go on without a short read. -/
theorem Intact.advance (intact : Intact old new content copying)
    (aligned : ∀ entry ∈ old, ¬ entry.Skipped → 1024 ∣ (content entry.ino).length)
    (unfinished : ¬ copying.Finished) :
    ∃ turn after, Moved new copying turn after ∧ ¬ turn.Short := by
  cases opened : copying.descriptors with
  | none =>
      cases next : copying.entries with
      | nil => exact absurd ⟨next, opened⟩ unfinished
      | cons entry entries =>
          by_cases skipped : entry.Skipped
          · exact ⟨_, _, .skip opened next skipped, id⟩
          · exact ⟨_, _, .enter opened next skipped, id⟩
  | some own =>
      obtain ⟨_, _, multiple, inside, entry, held, kept, ino⟩ := intact.opened own opened
      have whole : 1024 ∣ (content own.fd).length := ino ▸ aligned entry held kept
      rw [← intact.same] at whole inside
      by_cases ended : (copying.files.content own.fd).length ≤ own.offset
      · exact ⟨_, _, .leave opened ended, fun short => lt_irrefl 0 short.1⟩
      · have room : own.offset + 1024 ≤ (copying.files.content own.fd).length := by omega
        exact ⟨_, _, .round opened (by omega) le_rfl room, fun short => lt_irrefl 1024 short.2⟩

/-- A run from here comes to the end. -/
def Ends (new : CStr) (copying : Copying) : Prop :=
  ∃ history final, Run (step new) copying history final ∧ final.Finished

theorem Intact.ends (intact : Intact old new content copying)
    (aligned : ∀ entry ∈ old, ¬ entry.Skipped → 1024 ∣ (content entry.ino).length) :
    Ends new copying := by
  induction left : copying.left content using Nat.strong_induction_on generalizing copying with
  | _ bound ih =>
      by_cases finished : copying.Finished
      · exact ⟨[], copying, .nil, finished⟩
      · obtain ⟨turn, after, moved, whole⟩ := intact.advance aligned finished
        obtain ⟨next, less⟩ := intact.keeps moved whole
        obtain ⟨history, final, run, finished⟩ := ih _ (left ▸ less) next rfl
        exact ⟨_, final, .cons moved.step run, finished⟩

theorem Overrun.endless (overrun : Overrun copying) : ¬ Ends new copying := by
  rintro ⟨history, final, run, _, closed⟩
  obtain ⟨_, own, opened, _⟩ := run.invariant_state Overrun overrun
    fun overrun done => overrun.step (step_moved done)
  rw [closed] at opened
  cases opened

theorem Intact.step (intact : Intact old new content copying)
    (moved : Moved new copying turn after) : Intact old new content after ∨ Overrun after := by
  by_cases short : turn.Short
  · exact .inr (intact.falls_behind moved short)
  · exact .inl (intact.keeps moved short).1

/-- A copy that comes to its end has left no file in the middle of a buffer. -/
theorem Intact.aligned (intact : Intact old new content copying) (ends : Ends new copying) :
    ∀ entry ∈ old, ¬ entry.Skipped → 1024 ∣ (content entry.ino).length := by
  obtain ⟨history, final, run, ended, closed⟩ := ends
  have last : Intact old new content final ∨ Overrun final := by
    refine run.invariant_state (fun copying => Intact old new content copying ∨ Overrun copying)
      (.inl intact) ?_
    rintro state input output after (intact | overrun) done
    · exact intact.step (step_moved done)
    · exact .inr (overrun.step (step_moved done))
  intro entry held kept
  rcases last with intact | ⟨_, own, opened, _⟩
  · obtain ⟨done, split, seen⟩ := intact.seen
    rw [ended, List.append_nil] at split
    rcases seen entry (split ▸ held) kept with whole | ⟨own, opened, _⟩
    · exact whole
    · rw [closed] at opened
      cases opened
  · rw [closed] at opened
    cases opened

/-- Every read so far has filled the buffer, or one of them has left its reader behind. -/
theorem run_intact (distinct : (old.map Entry.name).Nodup)
    (free : ∀ entry ∈ old, ¬ entry.Skipped → files.dir new entry.name = none)
    (run : Run (step new) (shallowCopied old new files) history copying) :
    (Intact old new files.content copying ∧ (∀ event ∈ history, ¬ event.input.Short) ∧
        history.length + copying.left files.content ≤
          (shallowCopied old new files).left files.content) ∨
      (∃ event ∈ history, event.input.Short) ∧ Overrun copying := by
  induction run with
  | nil => exact .inl ⟨shallowCopied_intact distinct free, by simp, by simp⟩
  | @snoc past state after turn output run done ih =>
      have moved := step_moved done
      rcases ih with ⟨intact, whole, bound⟩ | ⟨⟨event, held, short⟩, overrun⟩
      · by_cases short : turn.Short
        · exact .inr ⟨⟨_, List.mem_append_right _ List.mem_cons_self, short⟩,
            intact.falls_behind moved short⟩
        · obtain ⟨next, less⟩ := intact.keeps moved short
          refine .inl ⟨next, fun event held => ?_, ?_⟩
          · rcases List.mem_append.mp held with earlier | last
            · exact whole event earlier
            · rwa [List.mem_singleton.mp last]
          · rw [List.length_append, List.length_singleton]
            omega
      · exact .inr ⟨⟨event, List.mem_append_left _ held, short⟩, overrun.step moved⟩

def readme : Entry := ⟨"README.md".toList, .regular, 7⟩

/-- Every file fills the buffer once. -/
def oneBlock : Files := ⟨fun _ => List.replicate 1024 0, fun _ _ => none, 8⟩

end Runs

end VoteCounting.Recitations.Links
