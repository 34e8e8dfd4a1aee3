import Mathlib.Data.List.DropRight
import Mathlib.Tactic

namespace VoteCounting

/-! Null-terminated strings and the C library functions on them.

A string is the list of its bytes before the terminator.  Buffers are unbounded:
writing past the end of an array is outside the model.
-/

/-- The bytes of a C string, without the terminator. -/
abbrev CStr := List Char

namespace CString

def NUL : Char := Char.ofNat 0

/-- `strcpy` stops at the first terminator. -/
def strcpy (source : List Char) : CStr := source.takeWhile (· ≠ NUL)

/-- `isspace` in the C locale: space, or one of `\t \n \v \f \r`. -/
def isspace (c : Char) : Bool := c.toNat = 32 || (9 ≤ c.toNat && c.toNat ≤ 13)

/-- The tokens successive calls of `strtok` return for a set of delimiters. -/
def words (delims : Char → Bool) (text : CStr) : List CStr :=
  (text.splitOnP delims).filter (· ≠ [])

/-- The tokens successive calls of `strtok` return: the maximal runs of bytes
that are not delimiters. -/
def tokens (delim : Char) (text : CStr) : List CStr :=
  (text.splitOnP (· == delim)).filter (· ≠ [])

def trimEnd (text : CStr) : CStr := text.rdropWhile isspace

def trim (text : CStr) : CStr := trimEnd (text.dropWhile isspace)

/-- The lines `getline` returns, each with its newline if it has one. -/
def getlines : CStr → List CStr
  | [] => []
  | c :: rest =>
      if c = '\n' then ['\n'] :: getlines rest
      else match getlines rest with
        | [] => [[c]]
        | line :: lines => (c :: line) :: lines

def decimal (value : Int) : CStr :=
  if value < 0 then '-' :: Nat.toDigits 10 value.natAbs else Nat.toDigits 10 value.natAbs

/-- Conversion to a 32-bit `int`. -/
def toInt (value : Int) : Int := value.bmod (2 ^ 32)

/-- `strtol` saturates at the bounds of a 64-bit `long`. -/
def clampLong (value : Int) : Int := max (-2 ^ 63) (min (2 ^ 63 - 1) value)

def leadingDigits (text : CStr) : Int :=
  Nat.ofDigitChars 10 (text.takeWhile Char.isDigit) 0

/-- `atoi` skips blanks, reads a sign and digits as a `long` and converts it. -/
def atoi (text : CStr) : Int :=
  match text.dropWhile isspace with
  | '-' :: digits => toInt (clampLong (-leadingDigits digits))
  | '+' :: digits => toInt (clampLong (leadingDigits digits))
  | digits => toInt (clampLong (leadingDigits digits))

section Copies

variable {word line : List Char}

theorem strcpy_of_free (free : NUL ∉ line) : strcpy line = line := by
  rw [strcpy, List.takeWhile_eq_self_iff]
  intro c member
  simpa using fun same : c = NUL => free (same ▸ member)

theorem strcpy_terminated (free : NUL ∉ word) (rest : List Char) :
    strcpy (word ++ NUL :: rest) = word := by
  have own : word.takeWhile (· ≠ NUL) = word := strcpy_of_free free
  rw [strcpy, List.takeWhile_append, own]
  simp

theorem nul_not_mem_strcpy (buffer : List Char) : NUL ∉ strcpy buffer := by
  intro member
  simpa using List.mem_takeWhile_imp member

end Copies

section Words

variable {delims : Char → Bool} {delim : Char} {word text blanks : CStr}

@[simp] theorem words_nil : words delims [] = [] := by simp [words]

theorem words_append_delim (separates : delims delim) (before after : CStr) :
    words delims (before ++ delim :: after) = words delims before ++ words delims after := by
  have split :
      (before ++ delim :: after).splitOnP delims =
        before.splitOnP delims ++ after.splitOnP delims :=
    List.splitOnP_append_cons before after separates
  simp only [words, split, List.filter_append]

theorem words_word (free : ∀ c ∈ word, delims c = false) (nonempty : word ≠ []) :
    words delims word = [word] := by
  have single : word.splitOnP delims = [word] := List.splitOnP_eq_singleton free
  simp [words, single, nonempty]

/-- A text is a word, or a word and a text behind a delimiter. -/
theorem words_induction (delims : Char → Bool) {P : CStr → Prop}
    (last : ∀ word, (∀ c ∈ word, delims c = false) → P word)
    (next : ∀ word delim rest, (∀ c ∈ word, delims c = false) → delims delim → P rest →
      P (word ++ delim :: rest))
    (text : CStr) : P text := by
  induction length : text.length using Nat.strong_induction_on generalizing text with
  | _ n ih =>
      have whole : text = text.takeWhile (! delims ·) ++ text.dropWhile (! delims ·) :=
        List.takeWhile_append_dropWhile.symm
      have free : ∀ c ∈ text.takeWhile (! delims ·), delims c = false := fun c member => by
        simpa using List.mem_takeWhile_imp member
      cases remaining : text.dropWhile (! delims ·) with
      | nil =>
          rw [remaining, List.append_nil] at whole
          rw [whole]
          exact last _ free
      | cons delim rest =>
          have separates : delims delim := by
            have notKept := List.head_dropWhile_not (! delims ·) (l := text) (by rw [remaining]; simp)
            simpa [remaining] using notKept
          rw [remaining] at whole
          rw [whole]
          refine next _ delim rest free separates (ih rest.length ?_ rest rfl)
          have shorter := congrArg List.length whole
          rw [List.length_append, List.length_cons] at shorter
          omega

theorem words_blanks (blank : ∀ c ∈ blanks, delims c) : words delims blanks = [] := by
  induction blanks with
  | nil => exact words_nil
  | cons delim rest ih =>
      have whole := words_append_delim (blank delim List.mem_cons_self) [] rest
      rw [List.nil_append, words_nil, List.nil_append] at whole
      rw [whole, ih fun c member => blank c (List.mem_cons_of_mem _ member)]

theorem words_append_blanks (blank : ∀ c ∈ blanks, delims c) :
    words delims (text ++ blanks) = words delims text := by
  cases blanks with
  | nil => rw [List.append_nil]
  | cons delim rest =>
      have more : words delims rest = [] :=
        words_blanks fun c member => blank c (List.mem_cons_of_mem _ member)
      rw [words_append_delim (blank delim List.mem_cons_self), more, List.append_nil]

/-- The last token of a text that does not end in a delimiter goes on with what follows. -/
theorem words_append_word (free : ∀ c ∈ word, delims c = false) (nonempty : text ≠ [])
    (ended : ∀ c, text.getLast? = some c → delims c = false) :
    ∃ front final, words delims text = front ++ [final] ∧
      words delims (text ++ word) = front ++ [final ++ word] := by
  induction text using words_induction delims with
  | last text textFree =>
      refine ⟨[], text, words_word textFree nonempty,
        words_word (fun c member => ?_) (by simp [nonempty])⟩
      exact (List.mem_append.mp member).elim (textFree c) (free c)
  | next first delim rest firstFree separates ih =>
      have restNonempty : rest ≠ [] := by
        rintro rfl
        have last := ended delim (by simp)
        rw [separates] at last
        cases last
      have restEnded : ∀ c, rest.getLast? = some c → delims c = false := by
        intro c last
        apply ended
        rw [List.getLast?_append, List.getLast?_cons, last]
        rfl
      obtain ⟨front, final, same, extended⟩ := ih restNonempty restEnded
      refine ⟨words delims first ++ front, final, ?_, ?_⟩
      · rw [words_append_delim separates, same, List.append_assoc]
      · rw [List.append_assoc, List.cons_append, words_append_delim separates, extended,
          List.append_assoc]

/-- Words with one blank between two of them. -/
def spaced : List CStr → CStr
  | [] => []
  | word :: rest => word ++ rest.flatMap fun word => ' ' :: word

theorem words_spaced {rest : List CStr} (blank : delims ' ')
    (free : ∀ w ∈ word :: rest, ∀ c ∈ w, delims c = false)
    (nonempty : ∀ w ∈ word :: rest, w ≠ []) (tail : ∀ c ∈ text, delims c = false) :
    ∃ front final, word :: rest = front ++ [final] ∧
      words delims (spaced (word :: rest) ++ text) = front ++ [final ++ text] := by
  induction rest generalizing word with
  | nil =>
      have own := free word List.mem_cons_self
      refine ⟨[], word, rfl, ?_⟩
      rw [spaced, List.flatMap_nil, List.append_nil, List.nil_append]
      refine words_word (fun c member => ?_) (by simp [nonempty word List.mem_cons_self])
      exact (List.mem_append.mp member).elim (own c) (tail c)
  | cons next rest ih =>
      obtain ⟨front, final, same, split⟩ := ih (fun w member => free w (List.mem_cons_of_mem _ member))
        fun w member => nonempty w (List.mem_cons_of_mem _ member)
      refine ⟨word :: front, final, by rw [same]; rfl, ?_⟩
      have whole :
          spaced (word :: next :: rest) ++ text =
            word ++ ' ' :: (spaced (next :: rest) ++ text) := by
        simp [spaced]
      rw [whole, words_append_delim blank, split, words_word (free word List.mem_cons_self)
        (nonempty word List.mem_cons_self)]
      rfl

theorem ne_nil_of_mem_words {token : CStr} (member : token ∈ words delims text) : token ≠ [] := by
  simpa using List.of_mem_filter member

/-- The bytes of a token are bytes of the text, and none of them is a delimiter. -/
theorem mem_of_mem_words {c : Char} {token : CStr} (member : token ∈ words delims text)
    (inside : c ∈ token) :
    c ∈ text ∧ delims c = false := by
  have single : ∀ word, (∀ c ∈ word, delims c = false) → token ∈ words delims word → c ∈ word ∧
      delims c = false := by
    intro word free member
    by_cases empty : word = []
    · rw [empty, words_nil] at member
      cases member
    · rw [words_word free empty] at member
      have held : c ∈ word := List.mem_singleton.mp member ▸ inside
      exact ⟨held, free c held⟩
  induction text using words_induction delims with
  | last text free => exact single text free member
  | next word delim rest free separates ih =>
      rw [words_append_delim separates] at member
      rcases List.mem_append.mp member with first | later
      · have held := single word free first
        exact ⟨List.mem_append_left _ held.1, held.2⟩
      · have held := ih later
        exact ⟨List.mem_append_right _ (List.mem_cons_of_mem _ held.1), held.2⟩

end Words

section Tokens

variable {delim : Char} {word text : CStr}

theorem free_iff : (∀ c ∈ word, (c == delim) = false) ↔ delim ∉ word := by
  simp only [beq_eq_false_iff_ne, ne_eq]
  exact ⟨fun free member => free delim member rfl, fun free c member same => free (same ▸ member)⟩

theorem tokens_nil : tokens delim [] = [] := words_nil

theorem tokens_append_delim (before after : CStr) :
    tokens delim (before ++ delim :: after) = tokens delim before ++ tokens delim after :=
  words_append_delim (by simp) before after

theorem tokens_word (free : delim ∉ word) (nonempty : word ≠ []) :
    tokens delim word = [word] :=
  words_word (free_iff.mpr free) nonempty

theorem tokens_word_delim (free : delim ∉ word) (nonempty : word ≠ []) (rest : CStr) :
    tokens delim (word ++ delim :: rest) = word :: tokens delim rest := by
  rw [tokens_append_delim, tokens_word free nonempty, List.singleton_append]

theorem tokens_concat_delim (text : CStr) : tokens delim (text ++ [delim]) = tokens delim text := by
  rw [tokens_append_delim, tokens_nil, List.append_nil]

/-- The last token of a text that does not end in a delimiter goes on with what follows. -/
theorem tokens_append_word (free : delim ∉ word) (nonempty : text ≠ [])
    (ended : text.getLast? ≠ some delim) :
    ∃ front final, tokens delim text = front ++ [final] ∧
      tokens delim (text ++ word) = front ++ [final ++ word] := by
  refine words_append_word (free_iff.mpr free) nonempty fun c last => ?_
  rw [beq_eq_false_iff_ne]
  rintro rfl
  exact ended last

theorem ne_nil_of_mem_tokens {token : CStr} (member : token ∈ tokens delim text) : token ≠ [] :=
  ne_nil_of_mem_words member

theorem delim_notMem_token {token : CStr} (member : token ∈ tokens delim text) : delim ∉ token := by
  intro inside
  have separates := (mem_of_mem_words member inside).2
  simp at separates

theorem mem_of_mem_tokens {c : Char} {token : CStr} (member : token ∈ tokens delim text)
    (inside : c ∈ token) :
    c ∈ text :=
  (mem_of_mem_words member inside).1

end Tokens

section Blanks

variable {text word blanks : CStr}

theorem trimEnd_append_blanks (blank : ∀ c ∈ blanks, isspace c) :
    trimEnd (text ++ blanks) = trimEnd text := by
  induction blanks using List.reverseRecOn with
  | nil => simp
  | append_singleton rest c ih =>
      rw [← List.append_assoc, trimEnd, List.rdropWhile_concat_pos _ _ _ (blank c (by simp))]
      exact ih fun d member => blank d (by simp [member])

theorem dropWhile_append_blanks (blank : ∀ c ∈ blanks, isspace c) :
    trimEnd ((text ++ blanks).dropWhile isspace) = trimEnd (text.dropWhile isspace) := by
  rw [List.dropWhile_append]
  split
  · rename_i empty
    have gone : text.dropWhile isspace = [] := by simpa using empty
    have allBlank : blanks.dropWhile isspace = [] := List.dropWhile_eq_nil_iff.mpr blank
    rw [gone, allBlank]
  · exact trimEnd_append_blanks blank

theorem trim_append_blanks (blank : ∀ c ∈ blanks, isspace c) :
    trim (text ++ blanks) = trim text :=
  dropWhile_append_blanks blank

@[simp] theorem trimEnd_trimEnd : trimEnd (trimEnd text) = trimEnd text :=
  List.rdropWhile_idempotent _ _

theorem trimEnd_sub : trimEnd text <+: text := List.rdropWhile_prefix _ _

theorem mem_trim {c : Char} (member : c ∈ trim text) : c ∈ text :=
  (List.dropWhile_sublist _).subset (trimEnd_sub.subset member)

theorem trim_eq_self_of_ends (nonempty : word ≠ []) (first : ¬ isspace (word.head nonempty))
    (last : ¬ isspace (word.getLast nonempty)) : trim word = word := by
  have kept : word.dropWhile isspace = word := by
    cases word with
    | nil => rfl
    | cons c rest => simp at first; simp [first]
  rw [trim, kept, trimEnd, List.rdropWhile_eq_self_iff]
  intro _
  exact last

theorem trim_eq_self_of_noBlank (free : ∀ c ∈ word, ¬ isspace c) : trim word = word := by
  cases word with
  | nil => rfl
  | cons c rest =>
      exact trim_eq_self_of_ends (by simp) (free _ (List.head_mem _)) (free _ (List.getLast_mem _))

theorem trim_dropWhile (text : CStr) : (trim text).dropWhile isspace = trim text := by
  cases kept : trim text with
  | nil => rfl
  | cons c rest =>
      have inside : trim text <+: text.dropWhile isspace := trimEnd_sub
      rw [kept] at inside
      obtain ⟨tail, whole⟩ := inside
      have notBlank := List.head_dropWhile_not isspace (l := text) (by rw [← whole]; simp)
      simp only [← whole, List.cons_append, List.head_cons] at notBlank
      simp [notBlank]

@[simp] theorem trim_trim : trim (trim text) = trim text := by
  rw [trim, trim_dropWhile, trim, trimEnd_trimEnd]

theorem trim_trimEnd (text : CStr) : trim (trimEnd text) = trim text := by
  induction text using List.reverseRecOn with
  | nil => rfl
  | append_singleton rest c ih =>
      by_cases blank : isspace c
      · have single : ∀ d ∈ [c], isspace d := by simpa using blank
        rw [trimEnd_append_blanks single, ih, trim_append_blanks single]
      · rw [trimEnd, List.rdropWhile_concat_neg _ _ _ blank]

@[simp] theorem trimEnd_trim : trimEnd (trim text) = trim text := by
  rw [trim, trimEnd_trimEnd]

end Blanks

section Lines

theorem getlines_line {line : CStr} (free : '\n' ∉ line) (rest : CStr) :
    getlines (line ++ '\n' :: rest) = (line ++ ['\n']) :: getlines rest := by
  induction line with
  | nil => rfl
  | cons c later ih =>
      have different : c ≠ '\n' := fun same => free (by simp [same])
      have laterFree : '\n' ∉ later := fun member => free (List.mem_cons_of_mem _ member)
      rw [List.cons_append, getlines, if_neg different, ih laterFree]
      rfl

theorem getlines_last {line : CStr} (free : '\n' ∉ line) (nonempty : line ≠ []) :
    getlines line = [line] := by
  induction line with
  | nil => exact absurd rfl nonempty
  | cons c later ih =>
      have different : c ≠ '\n' := fun same => free (by simp [same])
      have laterFree : '\n' ∉ later := fun member => free (List.mem_cons_of_mem _ member)
      rw [getlines, if_neg different]
      cases later with
      | nil => rfl
      | cons d more => rw [ih laterFree (by simp)]

theorem mem_getlines {text line : CStr} (member : line ∈ getlines text) :
    ∃ body, '\n' ∉ body ∧ (line = body ∧ body ≠ [] ∨ line = body ++ ['\n']) := by
  induction text generalizing line with
  | nil => cases member
  | cons c rest ih =>
      by_cases same : c = '\n'
      · rw [getlines, if_pos same] at member
        rcases List.mem_cons.mp member with rfl | later
        · exact ⟨[], by simp, .inr rfl⟩
        · exact ih later
      · have different : '\n' ≠ c := Ne.symm same
        rw [getlines, if_neg same] at member
        cases lines : getlines rest with
        | nil =>
            rw [lines] at member
            obtain rfl := List.mem_singleton.mp member
            exact ⟨[c], by simp [different], .inl ⟨rfl, by simp⟩⟩
        | cons first others =>
            rw [lines] at member ih
            rcases List.mem_cons.mp member with rfl | later
            · obtain ⟨body, free, whole⟩ := ih List.mem_cons_self
              refine ⟨c :: body, by simp [different, free], ?_⟩
              rcases whole with ⟨rfl, _⟩ | rfl
              · exact .inl ⟨rfl, by simp⟩
              · exact .inr rfl
            · exact ih (List.mem_cons_of_mem _ later)

/-- Only the last line can lack its newline. -/
theorem getlines_terminated {text line next : CStr} {front back : List CStr}
    (whole : getlines text = front ++ line :: next :: back) : ∃ body, line = body ++ ['\n'] := by
  induction text generalizing front line with
  | nil => cases front <;> cases whole
  | cons c rest ih =>
      rw [getlines] at whole
      split at whole
      · cases front with
        | nil =>
            rw [List.nil_append, List.cons.injEq] at whole
            exact ⟨[], whole.1.symm⟩
        | cons first front =>
            rw [List.cons_append, List.cons.injEq] at whole
            exact ih whole.2
      · cases lines : getlines rest with
        | nil =>
            rw [lines] at whole
            cases front <;> simp at whole
        | cons first others =>
            rw [lines] at whole
            cases front with
            | nil =>
                simp only [List.nil_append, List.cons.injEq] at whole
                obtain ⟨rfl, rfl⟩ := whole
                obtain ⟨body, rfl⟩ := @ih _ [] lines
                exact ⟨c :: body, rfl⟩
            | cons head front =>
                simp only [List.cons_append, List.cons.injEq] at whole
                exact @ih _ (first :: front) (by rw [lines, whole.2]; rfl)

/-- A text written line by line is read back line by line. -/
theorem getlines_flatMap {α : Type*} (body : α → CStr) (items : List α)
    (free : ∀ item ∈ items, '\n' ∉ body item) :
    getlines (items.flatMap fun item => body item ++ ['\n']) = items.map fun item =>
      body item ++ ['\n'] := by
  induction items with
  | nil => rfl
  | cons item rest ih =>
      rw [List.flatMap_cons, List.append_assoc, List.singleton_append,
        getlines_line (free item List.mem_cons_self), List.map_cons,
        ih fun later member => free later (List.mem_cons_of_mem _ member)]

end Lines

section Decimal

theorem isDigit_of_mem_decimal {value : Int} {c : Char} (member : c ∈ decimal value) :
    c = '-' ∨ c.isDigit := by
  rw [decimal] at member
  split at member
  · rcases List.mem_cons.mp member with rfl | member
    · exact .inl rfl
    · exact .inr (Nat.isDigit_of_mem_toDigits (by decide) (by decide) member)
  · exact .inr (Nat.isDigit_of_mem_toDigits (by decide) (by decide) member)

theorem mem_decimal_ne {value : Int} {c delim : Char} (member : c ∈ decimal value)
    (minus : delim ≠ '-') (digit : delim.isDigit = false) : c ≠ delim := by
  intro same
  subst same
  rcases isDigit_of_mem_decimal member with same | isDigit
  · exact minus same
  · rw [digit] at isDigit
    cases isDigit

theorem decimal_ne_nil (value : Int) : decimal value ≠ [] := by
  rw [decimal]
  split
  · simp
  · exact Nat.toDigits_ne_nil

theorem leadingDigits_toDigits (value : Nat) : leadingDigits (Nat.toDigits 10 value) = value := by
  have all : (Nat.toDigits 10 value).takeWhile Char.isDigit = Nat.toDigits 10 value :=
    List.takeWhile_eq_self_iff.mpr fun c member =>
      Nat.isDigit_of_mem_toDigits (by decide) (by decide) member
  rw [leadingDigits, all, Nat.ofDigitChars_ten_toDigits]

theorem toInt_of_range {value : Int} (lower : -2 ^ 31 ≤ value) (upper : value < 2 ^ 31) :
    toInt value = value := by
  rw [toInt]
  rw [Int.bmod_def]
  split <;> omega

theorem clampLong_of_range {value : Int} (lower : -2 ^ 31 ≤ value) (upper : value < 2 ^ 31) :
    clampLong value = value := by
  rw [clampLong]
  omega

theorem not_isspace_of_isDigit {c : Char} (digit : c.isDigit) : ¬ isspace c := by
  simp only [Char.isDigit, Bool.and_eq_true, decide_eq_true_eq] at digit
  have lower : 48 ≤ c.toNat := digit.1
  have upper : c.toNat ≤ 57 := digit.2
  simp only [isspace, Bool.or_eq_true, decide_eq_true_eq, Bool.and_eq_true, not_or]
  omega

theorem atoi_toDigits {value : Nat} (upper : value < 2 ^ 31) :
    atoi (Nat.toDigits 10 value) = value := by
  have whole : leadingDigits (Nat.toDigits 10 value) = value := leadingDigits_toDigits value
  have digits : ∀ c ∈ Nat.toDigits 10 value, c.isDigit := fun c member =>
    Nat.isDigit_of_mem_toDigits (by decide) (by decide) member
  cases text : Nat.toDigits 10 value with
  | nil => exact absurd text Nat.toDigits_ne_nil
  | cons c rest =>
      have head : c.isDigit := digits c (by simp [text])
      have kept : (c :: rest).dropWhile isspace = c :: rest := by
        simp [not_isspace_of_isDigit head]
      have notMinus : c ≠ '-' := by rintro rfl; simp at head
      have notPlus : c ≠ '+' := by rintro rfl; simp at head
      rw [atoi]
      rw [kept]
      split
      · rename_i same; simp_all
      · rename_i same; simp_all
      · rw [text] at whole
        rw [whole, clampLong_of_range (by omega) (by omega), toInt_of_range (by omega) (by omega)]

/-- `atoi` reads back what `%d` printed, for every `int`. -/
theorem atoi_decimal {value : Int} (lower : -2 ^ 31 ≤ value) (upper : value < 2 ^ 31) :
    atoi (decimal value) = value := by
  rw [decimal]
  split
  · rename_i negative
    have magnitude : ((value.natAbs : Nat) : Int) = -value := by omega
    have kept : ('-' :: Nat.toDigits 10 value.natAbs).dropWhile isspace =
        '-' :: Nat.toDigits 10 value.natAbs := by
      rw [List.dropWhile_cons_of_neg (by decide)]
    rw [atoi]
    rw [kept]
    simp only [leadingDigits_toDigits, magnitude, neg_neg]
    rw [clampLong_of_range lower upper, toInt_of_range lower upper]
  · rename_i nonnegative
    rw [atoi_toDigits (by omega)]
    omega

theorem leadingDigits_newline (text : CStr) : leadingDigits (text ++ ['\n']) = leadingDigits text := by
  have same : (text ++ ['\n']).takeWhile Char.isDigit = text.takeWhile Char.isDigit := by
    induction text with
    | nil => rfl
    | cons c rest ih => by_cases digit : c.isDigit <;> simp [digit, ih]
  rw [leadingDigits, same, leadingDigits]

theorem atoi_newline (text : CStr) : atoi (text ++ ['\n']) = atoi text := by
  rw [atoi, atoi]
  rw [List.dropWhile_append]
  cases kept : text.dropWhile isspace with
  | nil => rfl
  | cons c rest =>
      simp only [List.isEmpty_cons, Bool.false_eq_true, if_false, List.cons_append]
      have digits := leadingDigits_newline rest
      have whole := leadingDigits_newline (c :: rest)
      rw [List.cons_append] at whole
      split
      · rename_i same
        obtain ⟨rfl, rfl⟩ := List.cons_eq_cons.mp same
        simp only [digits]
      · rename_i same
        obtain ⟨rfl, rfl⟩ := List.cons_eq_cons.mp same
        simp only [digits]
      · rename_i notMinus notPlus
        split
        · rename_i same
          exact absurd (congrArg (· ++ ['\n']) same) (notMinus _)
        · rename_i same
          exact absurd (congrArg (· ++ ['\n']) same) (notPlus _)
        · rw [whole]

theorem atoi_range (text : CStr) : -2 ^ 31 ≤ atoi text ∧ atoi text < 2 ^ 31 := by
  have bounds : ∀ value : Int, -2 ^ 31 ≤ toInt value ∧ toInt value < 2 ^ 31 := by
    intro value
    rw [toInt]
    rw [Int.bmod_def]
    split <;> omega
  rw [atoi]
  split <;> exact bounds _

end Decimal

end CString

end VoteCounting
