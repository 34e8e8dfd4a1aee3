import VoteCounting.Strings
import Mathlib.Data.List.TakeDrop

namespace VoteCounting.Threads

open CString

/-- `strcat` writes at the first terminator. -/
def strcat (buffer : List Char) (source : CStr) : List Char :=
  strcpy buffer ++ source ++ NUL :: buffer.drop ((strcpy buffer).length + source.length + 1)

/-- `buffer[position] = c; buffer[position + 1] = '\0'`. -/
def store (buffer : List Char) (position : Nat) (c : Char) : List Char :=
  buffer.takeD position NUL ++ c :: NUL :: buffer.drop (position + 2)

/-- The variables of the loop of `decryptString`. -/
structure Decryption where
  fin : List Char := []
  position : Nat := 0
deriving DecidableEq, Repr

/-- The wrapped letters go where `fin` ends and leave `position` as it is. -/
def decryptChar (state : Decryption) (tmp : Char) : Decryption :=
  if tmp = 'y' then { state with fin := strcat state.fin ['a'] }
  else if tmp = 'z' then { state with fin := strcat state.fin ['b'] }
  else if tmp = 'Y' then { state with fin := strcat state.fin ['A'] }
  else if tmp = 'Z' then { state with fin := strcat state.fin ['B'] }
  else ⟨store state.fin state.position (Char.ofNat ((tmp.toNat + 2) % 256)), state.position + 1⟩

/-- What stands in `str` afterwards. -/
def decryptString (str : CStr) : CStr :=
  strcpy ((str.takeWhile fun c => c ≠ NUL ∧ c ≠ '\n').foldl decryptChar {}).fin

/-- The file a worker writes for its input file. -/
def readInput (text : List Char) : List Char :=
  (getlines text).flatMap fun line => decryptString line ++ ['\n']

/-- Two places back, each case in its own alphabet. -/
def encrypt (c : Char) : Char :=
  if c = 'a' then 'y'
  else if c = 'b' then 'z'
  else if c = 'A' then 'Y'
  else if c = 'B' then 'Z'
  else Char.ofNat (c.toNat - 2)

/-- The letters whose cipher lies at the end of the alphabet. -/
def Wraps (c : Char) : Prop := c = 'a' ∨ c = 'b' ∨ c = 'A' ∨ c = 'B'

instance : DecidablePred Wraps := fun _ => inferInstanceAs (Decidable (_ ∨ _ ∨ _ ∨ _))

section Buffers

variable {buffer source : List Char} {position : Nat} {c : Char}

theorem strcpy_strcat (free : NUL ∉ source) :
    strcpy (strcat buffer source) = strcpy buffer ++ source := by
  have whole : NUL ∉ strcpy buffer ++ source := by
    rw [List.mem_append]
    exact fun either => either.elim (nul_not_mem_strcpy buffer) free
  exact strcpy_terminated whole _

theorem strcpy_store (inside : position ≤ (strcpy buffer).length) (visible : c ≠ NUL) :
    strcpy (store buffer position c) = (strcpy buffer).take position ++ [c] := by
  have front : strcpy buffer <+: buffer := List.takeWhile_prefix _
  have kept : buffer.takeD position NUL = (strcpy buffer).take position := by
    rw [List.takeD_eq_take _ (inside.trans front.length_le), List.prefix_iff_eq_take.mp front,
      List.take_take, min_eq_left inside]
  have free : NUL ∉ (strcpy buffer).take position ++ [c] := by
    rw [List.mem_append, List.mem_singleton]
    exact fun either => either.elim
      (fun member => nul_not_mem_strcpy buffer (List.mem_of_mem_take member)) visible.symm
  rw [store, kept, List.append_cons]
  exact strcpy_terminated free _

end Buffers

section Letters

variable {state : Decryption} {c : Char} {s earlier : CStr}

theorem isAlpha_bounds (letter : c.isAlpha) :
    (65 ≤ c.toNat ∧ c.toNat ≤ 90) ∨ (97 ≤ c.toNat ∧ c.toNat ≤ 122) := by
  have either : (decide (c.val ≥ 65 ∧ c.val ≤ 90) || decide (c.val ≥ 97) && decide (c.val ≤ 122)) =
    true := letter
  simp only [Bool.or_eq_true, Bool.and_eq_true, decide_eq_true_eq, ge_iff_le,
    UInt32.le_iff_toNat_le] at either
  exact either

theorem toNat_ofNat_of_small {n : Nat} (small : n < 256) : (Char.ofNat n).toNat = n := by
  have valid : n.isValidChar := Or.inl (by omega)
  have made : Char.ofNat n = Char.ofNatAux n valid := by rw [Char.ofNat, dif_pos valid]
  rw [made]
  rfl

theorem decryptChar_wrapped (wraps : Wraps c) :
    decryptChar state (encrypt c) = { state with fin := strcat state.fin [c] } := by
  rcases wraps with rfl | rfl | rfl | rfl <;> rfl

theorem decryptChar_plain (letter : c.isAlpha) (plain : ¬ Wraps c) :
    decryptChar state (encrypt c) = ⟨store state.fin state.position c, state.position + 1⟩ := by
  have bounds := isAlpha_bounds letter
  simp only [Wraps, not_or] at plain
  obtain ⟨notLowerA, notLowerB, notUpperA, notUpperB⟩ := plain
  have code : (encrypt c).toNat = c.toNat - 2 := by
    rw [encrypt, if_neg notLowerA, if_neg notLowerB, if_neg notUpperA, if_neg notUpperB,
      toNat_ofNat_of_small (by omega)]
  have differs : ∀ last : Char, c.toNat ≠ last.toNat + 2 → encrypt c ≠ last := by
    intro last apart same
    rw [same] at code
    omega
  have back : Char.ofNat (((encrypt c).toNat + 2) % 256) = c := by
    have same : (c.toNat - 2 + 2) % 256 = c.toNat := by omega
    rw [code, same, Char.ofNat_toNat]
  -- Behind the last two letters of either alphabet there is no letter.
  have notY : encrypt c ≠ 'y' := differs 'y' (show c.toNat ≠ 123 by omega)
  have notZ : encrypt c ≠ 'z' := differs 'z' (show c.toNat ≠ 124 by omega)
  have notUpperY : encrypt c ≠ 'Y' := differs 'Y' (show c.toNat ≠ 91 by omega)
  have notUpperZ : encrypt c ≠ 'Z' := differs 'Z' (show c.toNat ≠ 92 by omega)
  rw [decryptChar, if_neg notY, if_neg notZ, if_neg notUpperY, if_neg notUpperZ, back]

theorem letter_ne_nul (letter : c.isAlpha) : c ≠ NUL := by
  rintro rfl
  exact absurd letter (by decide)

theorem encrypt_visible (letter : c.isAlpha) : encrypt c ≠ NUL ∧ encrypt c ≠ '\n' := by
  have bounds := isAlpha_bounds letter
  rw [encrypt]
  split
  · decide
  · split
    · decide
    · split
      · decide
      · split
        · decide
        · have code : (Char.ofNat (c.toNat - 2)).toNat = c.toNat - 2 := toNat_ofNat_of_small (by omega)
          have differs : ∀ other : Char, other.toNat < 63 → Char.ofNat (c.toNat - 2) ≠ other := by
            intro other low same
            rw [same] at code
            omega
          exact ⟨differs NUL (by decide), differs '\n' (by decide)⟩

/-- After the letters of `earlier`: those that do not wrap stand in order in front of `position`,
and the wrapped ones behind it are those read since the last of them. -/
structure Decrypted (earlier : CStr) (state : Decryption) : Prop where
  fin : strcpy state.fin = earlier.filter (¬ Wraps ·) ++ earlier.rtakeWhile Wraps
  position : state.position = (earlier.filter (¬ Wraps ·)).length

theorem Decrypted.step (decrypted : Decrypted earlier state) (letter : c.isAlpha) :
    Decrypted (earlier ++ [c]) (decryptChar state (encrypt c)) := by
  obtain ⟨fin, position⟩ := decrypted
  by_cases wraps : Wraps c
  · have free : NUL ∉ [c] := by
      rw [List.mem_singleton]
      exact (letter_ne_nul letter).symm
    rw [decryptChar_wrapped wraps]
    refine ⟨?_, ?_⟩
    · rw [strcpy_strcat free, fin, List.rtakeWhile_concat_pos _ _ _ (by simpa using wraps)]
      simp [wraps]
    · simpa [wraps] using position
  · have inside : state.position ≤ (strcpy state.fin).length := by
      rw [fin, position, List.length_append]
      exact Nat.le_add_right _ _
    rw [decryptChar_plain letter wraps]
    refine ⟨?_, ?_⟩
    · rw [strcpy_store inside (letter_ne_nul letter), fin, position, List.take_left,
        List.rtakeWhile_concat_neg _ _ _ (by simpa using wraps)]
      simp [wraps]
    · simpa [wraps] using position

/-- The wrapped letters in front of the last letter that does not wrap are lost. -/
theorem decryptString_encrypt (letters : ∀ c ∈ s, c.isAlpha) :
    decryptString (s.map encrypt ++ ['\n']) = s.filter (¬ Wraps ·) ++ s.rtakeWhile Wraps := by
  have line : (s.map encrypt ++ ['\n']).takeWhile (fun c => c ≠ NUL ∧ c ≠ '\n') = s.map encrypt := by
    have visible : ∀ c ∈ s.map encrypt, decide (c ≠ NUL ∧ c ≠ '\n') = true := by
      intro c member
      obtain ⟨letter, held, rfl⟩ := List.mem_map.mp member
      simpa using encrypt_visible (letters letter held)
    rw [List.takeWhile_append_of_pos visible]
    simp
  have run : Decrypted s ((s.map encrypt).foldl decryptChar {}) := by
    clear line
    induction s using List.reverseRecOn with
    | nil => exact ⟨by simp [strcpy], rfl⟩
    | append_singleton earlier c ih =>
        rw [List.map_append, List.map_singleton, List.foldl_concat]
        refine (ih fun c member => letters c (List.mem_append_left _ member)).step ?_
        exact letters c (List.mem_append_right _ List.mem_cons_self)
  rw [decryptString, line]
  exact run.fin

/-- Nothing is lost where the wrapped letters are at the end. -/
theorem filter_append_rtakeWhile_iff :
    s.filter (¬ Wraps ·) ++ s.rtakeWhile Wraps = s ↔
      s.Pairwise fun earlier later => Wraps earlier → Wraps later := by
  constructor
  · intro kept
    have plain : ∀ c ∈ s.filter (¬ Wraps ·), ¬ Wraps c := fun c member => by
      simpa using List.of_mem_filter member
    have wrapped : ∀ c ∈ s.rtakeWhile Wraps, Wraps c := fun c member => by
      simpa using List.mem_rtakeWhile_imp member
    revert plain wrapped kept
    generalize s.filter (¬ Wraps ·) = front
    generalize s.rtakeWhile Wraps = back
    rintro rfl plain wrapped
    refine List.pairwise_append.mpr ⟨?_, ?_, ?_⟩
    · exact List.pairwise_of_forall_mem_list fun earlier member _ _ wraps =>
        absurd wraps (plain earlier member)
    · exact List.pairwise_of_forall_mem_list fun _ _ later member _ => wrapped later member
    · exact fun earlier member _ _ wraps => absurd wraps (plain earlier member)
  · intro ordered
    induction s using List.reverseRecOn with
    | nil => simp
    | append_singleton earlier c ih =>
        obtain ⟨orderedEarlier, _, last⟩ := List.pairwise_append.mp ordered
        by_cases wraps : Wraps c
        · have same : (earlier ++ [c]).filter (¬ Wraps ·) = earlier.filter (¬ Wraps ·) := by
            simp [wraps]
          rw [List.rtakeWhile_concat_pos _ _ _ (by simpa using wraps), same, ← List.append_assoc,
            ih orderedEarlier]
        · have plain : earlier.filter (¬ Wraps ·) = earlier := by
            rw [List.filter_eq_self]
            intro d member
            simpa using fun also => wraps (last d member c List.mem_cons_self also)
          rw [List.rtakeWhile_concat_neg _ _ _ (by simpa using wraps), List.filter_append, plain]
          simp [wraps]

end Letters

/-- Decryption undoes the cipher exactly where no other letter comes after an `a` or a `b`. -/
theorem decryptString_encrypt_iff {s : CStr} (letters : ∀ c ∈ s, c.isAlpha) :
    decryptString (s.map encrypt ++ ['\n']) = s ↔
      s.Pairwise fun earlier later => Wraps earlier → Wraps later := by
  rw [decryptString_encrypt letters]
  exact filter_append_rtakeWhile_iff

/-- The wrapped letters of `TUBA` are its last two. -/
theorem decryptString_encrypt_iff_sample :
    decryptString ("TUBA".toList.map encrypt ++ ['\n']) = "TUBA".toList ↔
      "TUBA".toList.Pairwise fun earlier later => Wraps earlier → Wraps later :=
  decryptString_encrypt_iff (by simp)

/-- The letter at the front is overwritten by the one behind it: `SEEL` comes out. -/
theorem decryptString_loses : ∃ s : CStr, (∀ c ∈ s, c.isAlpha) ∧ s.map encrypt = "YQCCJ".toList ∧
    decryptString (s.map encrypt ++ ['\n']) ≠ s :=
  ⟨"ASEEL".toList, by simp, by decide, by decide⟩

end VoteCounting.Threads
