/-! # Blank characters

  The characters with the Unicode property White_Space. -/

namespace LoopNest.Text

/-- The blank characters beyond the tabulator, the line ends and the space. -/
def wideBlanks : List Nat :=
  [0x85, 0xa0, 0x1680, 0x2000, 0x2001, 0x2002, 0x2003, 0x2004, 0x2005, 0x2006, 0x2007, 0x2008,
    0x2009, 0x200a, 0x2028, 0x2029, 0x202f, 0x205f, 0x3000]

/-- Whether a character is blank. -/
def isBlank (c : Char) : Bool :=
  let n := c.toNat
  (9 ≤ n && n ≤ 13) || n = 32 || wideBlanks.contains n

theorem isBlank_of_isWhitespace {c : Char} (h : c.isWhitespace = true) : isBlank c = true := by
  simp [Char.isWhitespace] at h
  rcases h with ((rfl | rfl) | rfl) | rfl <;> decide

/-- The text without blanks around it. -/
def trimmed (s : String) : String :=
  String.ofList ((s.toList.dropWhile isBlank).reverse.dropWhile isBlank).reverse

/-- Whether a text has no other characters. -/
def allBlank (s : String) : Bool := s.toList.all isBlank

/-- Cuts a list of characters at each character that `sep` holds of; `word` is what has been read
    since the last cut, backwards. -/
def cut (sep : Char → Bool) (word : List Char) : List Char → List (List Char)
  | [] => [word.reverse]
  | c :: cs => if sep c then word.reverse :: cut sep [] cs else cut sep (c :: word) cs

/-- The words between blanks. -/
def words (s : String) : List String :=
  ((cut isBlank [] s.toList).filter (!·.isEmpty)).map String.ofList

/-- The parts between separators that are not empty. -/
def items (sep : Char) (s : String) : List String :=
  ((cut (· == sep) [] s.toList).filter (!·.isEmpty)).map String.ofList

end LoopNest.Text
