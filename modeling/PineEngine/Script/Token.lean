import PineEngine.Script.Literal

/-! # Tokens

What the text of a script is cut into. Marks for the start and the end of an indented block and for the
end of a statement are tokens too; they are put into the text by the layout.
-/

namespace PineEngine.Script

inductive TokenKind where
  | assign | cond | condElse
  | eq | neq | ge | arrow | gt | le | lt
  | plus | minus | mul | div | mod
  | comma | openBracket | closeBracket | define
  | ifCond | ifElse | or | and | not
  | forLoop | forTo | forBy | breakLoop | continueLoop
  | openParen | closeParen
  | blockBegin | blockEnd | delim
  | float | int | bool | str | color
  | ident
  deriving DecidableEq, Repr, Inhabited

namespace TokenKind

def label : TokenKind → String
  | assign => "ASSIGN" | cond => "COND" | condElse => "COND_ELSE"
  | eq => "EQ" | neq => "NEQ" | ge => "GE" | arrow => "ARROW" | gt => "GT" | le => "LE" | lt => "LT"
  | plus => "PLUS" | minus => "MINUS" | mul => "MUL" | div => "DIV" | mod => "MOD"
  | comma => "COMMA" | openBracket => "LSQBR" | closeBracket => "RSQBR" | define => "DEFINE"
  | ifCond => "IF_COND" | ifElse => "IF_COND_ELSE" | or => "OR" | and => "AND" | not => "NOT"
  | forLoop => "FOR_STMT" | forTo => "FOR_STMT_TO" | forBy => "FOR_STMT_BY"
  | breakLoop => "BREAK" | continueLoop => "CONTINUE"
  | openParen => "LPAR" | closeParen => "RPAR"
  | blockBegin => "BEGIN" | blockEnd => "END" | delim => "DELIM"
  | float => "FLOAT_LITERAL" | int => "INT_LITERAL" | bool => "BOOL_LITERAL" | str => "STR_LITERAL"
  | color => "COLOR_LITERAL" | ident => "ID"

/-- Whether a statement may go on in the next line after a token of this kind. -/
def continues : TokenKind → Bool
  | assign | cond | condElse | eq | neq | ge | gt | le | lt | plus | minus | mul | div | mod
  | comma | define | or | and => true
  | _ => false

end TokenKind

/-- A token: its kind and value, the line and the position of its first character, and its text. -/
structure Token where
  kind : TokenKind
  value : Literal
  line : Nat
  pos : Nat
  lexeme : List Char
  deriving Inhabited

namespace Token

def shown (t : Token) : String :=
  "LexToken(" ++ t.kind.label ++ "," ++ t.value.shown ++ "," ++ toString t.line ++ "," ++
    toString t.pos ++ ")"

def word (t : Token) : String :=
  t.value.printed

end Token

end PineEngine.Script
