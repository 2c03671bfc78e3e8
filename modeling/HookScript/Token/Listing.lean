/-
Token listings: one line per token with its place, its kind and its text, on request in colour.
-/
import HookScript.Token.Scan
import HookScript.Text

namespace HookScript

/-- How to list tokens. -/
structure TokenListing where
  color : Bool := true
  places : Bool := true
deriving DecidableEq, Repr

namespace TokenListing

/-- The name of a kind in listings. -/
def kindName : Token.Kind → String
  | .endOfInput => "EOF"
  | .invalid => "INVALID"
  | .colon => "COLON"
  | .semicolon => "SEMI"
  | .symbol => "SYMBOL"
  | .number => "NUMBER"

/-- The terminal's code for the colour of a kind. -/
def kindColor : Token.Kind → String
  | .endOfInput | .semicolon | .colon => "\x1b[2m"
  | .invalid => "\x1b[31m"
  | .number => "\x1b[36m"
  | .symbol => "\x1b[33m"

/-- The terminal's code for the end of a colour. -/
def colorEnd : String := "\x1b[0m"

/-- The place of a token, each number with two digits at least. -/
def place (t : Token) : String :=
  "[" ++ Text.zeroPadded 2 t.span.start.line ++ ":" ++
    Text.zeroPadded 2 t.span.start.column ++ "] "

/-- The line of one token. -/
def line (l : TokenListing) (t : Token) : String :=
  (if l.places then place t else "") ++
  (if l.color then kindColor t.kind else "") ++
  Text.padRight 8 (kindName t.kind) ++ " " ++ t.display ++
  (if l.color then colorEnd else "") ++ "\n"

/-- The lines of all tokens. -/
def render (l : TokenListing) (tokens : List Token) : String :=
  tokens.foldl (fun text t => text ++ l.line t) ""

end TokenListing

end HookScript
