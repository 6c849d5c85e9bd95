/-!
# Lines of a text

A text is cut at every line separator of the character standard, carriage return and line feed
counting as one. A separator ends a line, so there is no empty last line.
-/

namespace ScriptAudit.Text

def endsLine (c : Char) : Bool :=
  let n := c.toNat
  (0x0A ≤ n && n ≤ 0x0D) || (0x1C ≤ n && n ≤ 0x1E) || n == 0x85 || n == 0x2028 || n == 0x2029

def linesFrom (open_ : List Char) : List Char → List (List Char)
  | [] => if open_.isEmpty then [] else [open_.reverse]
  | '\r' :: '\n' :: rest => open_.reverse :: linesFrom [] rest
  | c :: rest =>
    if endsLine c then open_.reverse :: linesFrom [] rest else linesFrom (c :: open_) rest

def lines (s : String) : List (List Char) :=
  linesFrom [] s.toList

def unifyNewlines : List Char → List Char
  | [] => []
  | '\r' :: '\n' :: rest => '\n' :: unifyNewlines rest
  | c :: rest => (if c == '\r' then '\n' else c) :: unifyNewlines rest

end ScriptAudit.Text
