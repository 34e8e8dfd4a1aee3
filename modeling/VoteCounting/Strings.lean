import VoteCounting.Data.CString

namespace VoteCounting

open CString

/-- The pointer `trimwhitespace` returns. -/
def trimwhitespace (str : CStr) : CStr := trim str

/-- What `trimwhitespace` leaves in the buffer it was given: the terminator moves
forward, but leading blanks stay, and a blank string is not written at all. -/
def trimwhitespaceBuffer (str : CStr) : CStr := if str.all isspace then str else trimEnd str

/-- The argument vector without the final `NULL`; entries from its length on are `NULL`. -/
def makeargv (s : CStr) (delimiter : Char) : List CStr := tokens delimiter s

/-- Removes one newline at the end. -/
def trimlastenter (filename : CStr) : CStr :=
  if filename.getLast? = some '\n' then filename.dropLast else filename

theorem trimwhitespaceBuffer_of_trimmed {str : CStr} (trimmed : trimwhitespace str = str) :
    trimwhitespaceBuffer str = str := by
  rw [trimwhitespaceBuffer]
  split
  · rfl
  · rw [← trimmed, trimwhitespace, trimEnd_trim]

/-- Without a blank at the front the buffer holds what the pointer is to. -/
theorem trimwhitespaceBuffer_of_front {str : CStr} (front : ∀ c, str.head? = some c → ¬ isspace c) :
    trimwhitespaceBuffer str = trimwhitespace str := by
  cases str with
  | nil => rfl
  | cons c rest =>
      have notBlank := front c rfl
      have kept : (c :: rest).dropWhile isspace = c :: rest := List.dropWhile_cons_of_neg notBlank
      rw [trimwhitespaceBuffer, if_neg (by simp [notBlank]), trimwhitespace, trim, kept]

@[simp] theorem trimwhitespace_trimwhitespace (str : CStr) :
    trimwhitespace (trimwhitespace str) = trimwhitespace str := trim_trim

theorem trimlastenter_of_free {line : CStr} (free : '\n' ∉ line) : trimlastenter line = line := by
  rw [trimlastenter, if_neg fun last => free (List.mem_of_getLast? last)]

theorem trimlastenter_line (line : CStr) : trimlastenter (line ++ ['\n']) = line := by
  simp [trimlastenter]

end VoteCounting
