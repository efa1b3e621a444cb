import PineEngine.Decimal.Read
import PineEngine.Fault
import PineEngine.Script.Layout
import PineEngine.Text.Word

/-! # Cutting a text into tokens

At each position the rules are tried in their order, and the first that fits takes its piece. Inside
parentheses and brackets, and after an operator, the marks of the layout are swallowed, so that a
statement can go on in the next lines; a closing mark that belongs to a swallowed opening mark is
swallowed too.

`Lexer.scan` cuts the text into pieces that cover it: tokens, runs of blanks and of line feeds, and
swallowed marks.
-/

namespace PineEngine.Script

open Text

inductive Lexical where
  | token (kind : TokenKind)
  | lineFeeds
  deriving DecidableEq

namespace Lexical

/-- How many characters of a text a fixed word takes at its start. -/
def fixed (word : String) (cs : List Char) : Option Nat :=
  let w := word.toList
  if w.isPrefixOf cs then some w.length else none

/-- A keyword: the word, with no word character on either side. -/
def keyword (word : String) (before : Option Char) (cs : List Char) : Option Nat :=
  if before.any isWord then none
  else (fixed word cs).bind fun n => if (cs.drop n).head?.any isWord then none else some n

def digitRun (cs : List Char) : Nat :=
  (cs.takeWhile isDecimal).length

def exponent (cs : List Char) : Option Nat :=
  match cs with
  | e :: rest =>
    if e == 'e' || e == 'E' then
      let (sign, rest) := match rest with
        | '+' :: tail => (1, tail)
        | '-' :: tail => (1, tail)
        | _ => (0, rest)
      let n := digitRun rest
      if n == 0 then none else some (1 + sign + n)
    else none
  | [] => none

/-- A decimal: a point and digits, digits and a point, or an exponent part alone. -/
def float (cs : List Char) : Option Nat :=
  let fraction (rest : List Char) : Option Nat :=
    let n := digitRun rest
    if n == 0 then none else some (n + (exponent (rest.drop n)).getD 0)
  match cs with
  | '.' :: rest => (fraction rest).map (1 + ·)
  | _ =>
    let n := digitRun cs
    if n == 0 then exponent cs
    else
      match cs.drop n with
      | '.' :: rest => some (n + 1 + (fraction rest).getD 0)
      | _ => none

def int (cs : List Char) : Option Nat :=
  let n := digitRun cs
  if n == 0 then none else some n

/-- A text in quotes, in one line. A backslash is a character like any other. -/
def str (cs : List Char) : Option Nat :=
  let body (quote : Char) (rest : List Char) : Option Nat :=
    let n := (rest.takeWhile fun c => c != quote && c != '\n').length
    if (rest.drop n).head? == some quote then some (n + 2) else none
  match cs with
  | '"' :: rest => body '"' rest
  | '\'' :: rest => body '\'' rest
  | _ => none

def isColorDigit (c : Char) : Bool :=
  isDecimal c || ('a' ≤ c && c ≤ 'f') || ('A' ≤ c && c ≤ 'F')

def color (cs : List Char) : Option Nat :=
  match cs with
  | '#' :: rest =>
    let n := ((rest.take 8).takeWhile isColorDigit).length
    if n < 6 then none else some (if n < 8 then 7 else 9)
  | _ => none

/-- The tail of a dotted name: parts that end in a point, a point allowed before each, and a last part
    of word characters. Of all such tails the longest is taken; `fuel` bounds the number of parts. -/
def nameTail : Nat → List Char → Option Nat
  | 0, _ => none
  | fuel + 1, cs =>
    let lead := if cs.head? == some '.' then 1 else 0
    let run := ((cs.drop lead).takeWhile isWord).length
    let further :=
      if run == 0 then none
      else
        match cs.drop (lead + run) with
        | '.' :: rest => (nameTail fuel rest).map (lead + run + 1 + ·)
        | _ => none
    match further with
    | some n => some n
    | none => if lead == 0 && run != 0 then some run else none

/-- A name: a letter or low line of ASCII, and perhaps a tail. -/
def name (cs : List Char) : Option Nat :=
  match cs with
  | c :: rest =>
    if c.isAlpha || c == '_' then some (1 + (nameTail rest.length rest).getD 0) else none
  | [] => none

def lineFeedRun (cs : List Char) : Option Nat :=
  let n := (cs.takeWhile (· == '\n')).length
  if n == 0 then none else some n

/-- Tokens with a fixed text, in the order in which they are tried. -/
def symbols : List (String × TokenKind) := [
  (":=", .assign), ("?", .cond), (":", .condElse), ("==", .eq), ("!=", .neq), (">=", .ge),
  ("=>", .arrow), (">", .gt), ("<=", .le), ("<", .lt), ("+", .plus), ("-", .minus), ("*", .mul),
  ("/", .div), ("%", .mod), (",", .comma), ("[", .openBracket), ("]", .closeBracket), ("=", .define)]

def keywords : List (String × TokenKind) := [
  ("if", .ifCond), ("else", .ifElse), ("or", .or), ("and", .and), ("not", .not), ("for", .forLoop),
  ("to", .forTo), ("by", .forBy), ("break", .breakLoop), ("continue", .continueLoop)]

def brackets : List (String × TokenKind) := [
  ("(", .openParen), (")", .closeParen), ("|BGN|", .blockBegin), ("|END|", .blockEnd), ("|DLM|", .delim)]

/-- The first rule that fits at the start of a text, and how many characters it takes. -/
def first? (before : Option Char) (cs : List Char) : Option (Lexical × Nat) :=
  let one (kind : TokenKind) (n : Option Nat) : Option (Lexical × Nat) := n.map (Lexical.token kind, ·)
  (symbols.findSome? fun (w, k) => one k (fixed w cs)) <|>
  (keywords.findSome? fun (w, k) => one k (keyword w before cs)) <|>
  (brackets.findSome? fun (w, k) => one k (fixed w cs)) <|>
  one .float (float cs) <|>
  one .int (int cs) <|>
  one .bool (fixed "true" cs <|> fixed "false" cs) <|>
  one .str (str cs) <|>
  one .color (color cs) <|>
  one .ident (name cs) <|>
  (lineFeedRun cs).map (Lexical.lineFeeds, ·)

end Lexical

structure LexState where
  parens : Int := 0
  brackets : Int := 0
  /-- Opening marks that were swallowed and are not closed yet. -/
  swallowed : Int := 0
  /-- Whether the statement may go on in the next line. -/
  continues : Bool := false
  line : Nat := 1
  deriving Inhabited

namespace LexState

def bracketed (s : LexState) : Bool :=
  s.parens != 0 || s.brackets != 0

end LexState

inductive Piece where
  | token (t : Token)
  | blanks (cs : List Char)
  | lineFeeds (cs : List Char)
  | swallowed (kind : TokenKind) (cs : List Char)

namespace Piece

def text : Piece → List Char
  | token t => t.lexeme
  | blanks cs => cs
  | lineFeeds cs => cs
  | swallowed _ cs => cs

def token? : Piece → Option Token
  | token t => some t
  | _ => none

end Piece

namespace Lexer

def valueOf (kind : TokenKind) (lexeme : List Char) : Except Fault Literal :=
  let s := String.ofList lexeme
  match kind with
  | .float =>
    match Decimal.readFloat? s with
    | some x => .ok (.float x)
    | none => .error .value
  | .int =>
    match Decimal.readInt? s with
    | some n => .ok (.int n)
    | none => .error .value
  | .bool => .ok (.bool (s == "true"))
  | .str => .ok (.text (String.ofList (lexeme.drop 1).dropLast))
  | _ => .ok (.text s)

def swallows (s : LexState) : TokenKind → Bool
  | .blockBegin | .delim => s.bracketed || s.continues
  | .blockEnd => s.bracketed || s.swallowed != 0
  | _ => false

def next (s : LexState) (kind : TokenKind) : LexState :=
  if swallows s kind then
    match kind with
    | .blockBegin => { s with swallowed := s.swallowed + 1 }
    | .blockEnd => if s.bracketed then s else { s with swallowed := s.swallowed - 1 }
    | _ => s
  else
    let s := { s with continues := kind.continues }
    match kind with
    | .openParen => { s with parens := s.parens + 1 }
    | .closeParen => { s with parens := s.parens - 1 }
    | .openBracket => { s with brackets := s.brackets + 1 }
    | .closeBracket => { s with brackets := s.brackets - 1 }
    | _ => s

/-- The piece that a rule makes of its text, and the state after it. -/
def cut (s : LexState) (pos : Nat) (lexeme : List Char) : Lexical → Except Fault (Piece × LexState)
  | .lineFeeds => .ok (.lineFeeds lexeme, { s with line := s.line + lexeme.length })
  | .token kind =>
    if swallows s kind then .ok (.swallowed kind lexeme, next s kind)
    else (valueOf kind lexeme).map fun v => (.token ⟨kind, v, s.line, pos, lexeme⟩, next s kind)

/-- The first piece of a text that is not empty, and how many characters it takes. -/
def piece (s : LexState) (before : Option Char) (pos : Nat) (c : Char) (rest : List Char) :
    Except Fault (Piece × LexState × Nat) :=
  if c == ' ' || c == '\t' then
    let n := (rest.takeWhile fun d => d == ' ' || d == '\t').length
    .ok (.blanks ((c :: rest).take (n + 1)), s, n + 1)
  else
    match Lexical.first? before (c :: rest) with
    | none => .error (.script (.invalidCharacter c))
    | some (rule, n) => (cut s pos ((c :: rest).take n) rule).map fun (p, s) => (p, s, n)

/-- The pieces of a text, the state after them, and the fault that stopped the lexer, if one did. -/
structure Scan where
  pieces : List Piece
  state : LexState
  fault : Option Fault

def scan (s : LexState) (before : Option Char) (pos : Nat) : List Char → Scan
  | [] => ⟨[], s, none⟩
  | c :: rest =>
    match piece s before pos c rest with
    | .error e => ⟨[], s, some e⟩
    | .ok (p, s, n) =>
      let n := n - 1
      let last := ((c :: rest).take (n + 1)).getLast?
      let tail := scan s last (pos + n + 1) (rest.drop n)
      { tail with pieces := p :: tail.pieces }
termination_by cs => cs.length
decreasing_by simp only [List.length_drop, List.length_cons]; omega

def run (cs : List Char) : Scan :=
  scan {} none 0 cs

def Scan.tokens (s : Scan) : List Token :=
  s.pieces.filterMap Piece.token?

end Lexer

end PineEngine.Script
