/-! # Indented text

  Programs are shown as lines of text indented by their nesting. A `Writer` collects that text: it
  remembers the current depth and puts the indentation in front of the first character of every
  line that has one, so that empty lines stay empty. -/

namespace LoopNest.Text

/-- Text under construction. -/
structure Writer where
  text : String := ""
  depth : Nat := 0
  /-- What one level of nesting is indented by. -/
  unit : String := "  "
  atLineStart : Bool := true
deriving Repr, Inhabited

namespace Writer

/-- One level deeper. -/
def indent (w : Writer) : Writer := { w with depth := w.depth + 1 }

/-- One level back; the outermost level stays. -/
def dedent (w : Writer) : Writer := { w with depth := w.depth - 1 }

/-- The indentation of the current depth. -/
def margin (w : Writer) : String := String.join (List.replicate w.depth w.unit)

/-- Writes one character. A line break starts a new line. -/
def put (w : Writer) (c : Char) : Writer :=
  if c = '\n' then
    { w with text := w.text.push c, atLineStart := true }
  else if w.atLineStart then
    { w with text := (w.text ++ w.margin).push c, atLineStart := false }
  else
    { w with text := w.text.push c }

/-- Writes text that may span several lines. -/
def write (w : Writer) (s : String) : Writer := s.toList.foldl put w

/-- Writes text and ends the line. -/
def line (w : Writer) (s : String) : Writer := (w.write s).put '\n'

/-- Writes a header, a body one level deeper, and the closing brace. -/
def block (w : Writer) (header : String) (body : Writer → Writer) : Writer :=
  (body ((w.write header).line " \x7b").indent).dedent.line "\x7d"

end Writer

/-- The texts of a list with a separator between them. -/
def list (separator : String) (texts : List String) : String := separator.intercalate texts

end LoopNest.Text
