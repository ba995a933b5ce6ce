namespace Deadwood.Text

/-!
Lines of a text, and the starred frame drawn around a message.
-/

/-- The characters that end a line: line feed, vertical tab, form feed, carriage return, the file,
group and record separators, next line, and the line and paragraph separators. -/
def isLineEnd (c : Char) : Bool :=
  c.toNat ∈ [0x0a, 0x0b, 0x0c, 0x0d, 0x1c, 0x1d, 0x1e, 0x85, 0x2028, 0x2029]

/-- The lines of a text without their ends. A carriage return and a line feed after it end one
line together, and a line end that closes the text starts no further line. -/
def lines : List Char → List (List Char)
  | [] => []
  | '\r' :: '\n' :: rest => [] :: lines rest
  | c :: rest =>
      if isLineEnd c then [] :: lines rest
      else
        match lines rest with
        | [] => [[c]]
        | first :: others => (c :: first) :: others

def boxLine (width : Nat) (line : List Char) : List Char :=
  "* ".toList ++ line.rightpad width ' ' ++ " *".toList

/-- The text in a frame of stars, each line padded to the longest. -/
def box (text : String) : String :=
  let content := match lines text.toList with
    | [] => [[]]
    | found => found
  let width := (content.map List.length).foldl max 0
  let border := List.replicate (width + 4) '*'
  let rows := [border] ++ content.map (boxLine width) ++ [border]
  String.ofList ("\n".toList.intercalate rows)

end Deadwood.Text
