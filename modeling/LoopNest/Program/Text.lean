import LoopNest.Expr.Text
import LoopNest.Program.Walk

/-! # The text of a program

  One line per statement, indented by nesting; a label stands in front of its statement. A block
  has no line of its own unless it is labelled. -/

namespace LoopNest

/-- The text of an argument. -/
def Arg.text : Arg → String
  | .buffer b => b
  | .value e => e.text

namespace Stmt

open Text (Writer)

/-- The label of a statement in front of its text. -/
def labelText (s : Site) : String :=
  match s.label with
  | some l => l ++ ": "
  | none => ""

/-- The header of a declaration. -/
def declText (name : String) (b : Buffer) : String :=
  "vardef " ++ name ++ ": " ++ b.elem.name ++ "[" ++ Text.list ", " (b.shape.map Expr.text) ++ "] "
    ++ b.access.name ++ " " ++ b.space.name

/-- The header of a loop. -/
def headText (h : LoopHead) : String :=
  let tag := match h.mode with
    | .parallel tag => " @parallel(" ++ tag ++ ")"
    | .sequential => ""
  let noDeps := if h.noDeps.isEmpty then "" else " @no_deps(" ++ Text.list ", " h.noDeps ++ ")"
  "for " ++ h.iter ++ " in " ++ h.lower.text ++ ".." ++ h.upper.text ++ tag ++ noDeps

mutual
/-- Writes a statement. -/
def render : Stmt → Writer → Writer
  | .decl s n b body => fun w => w.block (labelText s ++ declText n b) (render body)
  | .loop s h body => fun w => w.block (labelText s ++ headText h) (render body)
  | .guard s c body => fun w => w.block (labelText s ++ "if " ++ c.text) (render body)
  | .branch s c yes no => fun w =>
    let w := (render yes (w.line (labelText s ++ "if " ++ c.text ++ " \x7b")).indent).dedent
    (render no (w.line "\x7d else \x7b").indent).dedent.line "\x7d"
  | .store s b is v => fun w =>
    w.line (labelText s ++ b ++ "[" ++ Text.list ", " (is.map Expr.text) ++ "] = " ++ v.text)
  | .call s f args => fun w =>
    w.line (labelText s ++ f ++ "(" ++ Text.list ", " (args.map Arg.text) ++ ")")
  | .block s stmts => fun w =>
    renderAll stmts (match s.label with
      | some l => w.line (l ++ ":")
      | none => w)
  | .hole s => fun w => w.line (labelText s ++ "...")
/-- Writes statements one after the other. -/
def renderAll : List Stmt → Writer → Writer
  | [] => fun w => w
  | t :: ts => fun w => renderAll ts (render t w)
end

/-- The text of a program. -/
def text (t : Stmt) : String := (t.render {}).text

end Stmt

end LoopNest
