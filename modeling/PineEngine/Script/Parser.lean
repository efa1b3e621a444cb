import PineEngine.Script.Lexer
import PineEngine.Script.Tree

/-! # From tokens to the tree

A parser by descent through the levels of precedence. A call inside the parser spends one unit
of a budget, which is fixed from the number of tokens so that it never runs out before the tokens do.

Names in a row at the start of an argument list are kept as bare names, whose nodes have no line; a row
of names alone in brackets at the start of a statement is the target of a multiple definition, which is
not available.
-/

namespace PineEngine.Script

/-- The levels of precedence, the loosest first. -/
inductive Precedence where
  | choice | any | all | equality | order | sum | product | signed | indexed | atom
  deriving DecidableEq

/-- The level of the operands of a level; an atom has none. -/
def Precedence.next : Precedence → Precedence
  | choice => any
  | any => all
  | all => equality
  | equality => order
  | order => sum
  | sum => product
  | product => signed
  | signed => indexed
  | indexed => atom
  | atom => atom

def BinaryOp.level : BinaryOp → Precedence
  | eq | neq => .equality
  | gt | ge | lt | le => .order
  | add | sub => .sum
  | mul | div | mod => .product
  | index => .indexed

namespace Parser

def peek (ts : List Token) : Option TokenKind :=
  ts.head?.map Token.kind

def peek2 (ts : List Token) : Option TokenKind :=
  (ts.drop 1).head?.map Token.kind

/-- The next token cannot stand here. At the end of the tokens the fault is `atEnd`. -/
def unexpected {α : Type} (atEnd : Fault) (ts : List Token) : Except Fault (α × List Token) :=
  match ts with
  | t :: _ => .error (.script (.unexpectedToken (some t)))
  | [] => .error atEnd

def expect (atEnd : Fault) (kind : TokenKind) (ts : List Token) : Except Fault (Token × List Token) :=
  match ts with
  | t :: rest => if t.kind == kind then .ok (t, rest) else unexpected atEnd ts
  | [] => .error atEnd

def operator? : TokenKind → Option BinaryOp
  | .eq => some .eq
  | .neq => some .neq
  | .gt => some .gt
  | .ge => some .ge
  | .lt => some .lt
  | .le => some .le
  | .plus => some .add
  | .minus => some .sub
  | .mul => some .mul
  | .div => some .div
  | .mod => some .mod
  | _ => none

def signOp? : TokenKind → Option UnaryOp
  | .not => some .not
  | .plus => some .plus
  | .minus => some .minus
  | _ => none

/-- Joins an operand to an or-list that stands first, or starts one. -/
def joinAny (line : Line) (left right : Tree) : Tree :=
  match left with
  | .anyOf l items => .anyOf l (items ++ [right])
  | _ => .anyOf line [left, right]

/-- Joins an operand to an and-list that stands first, or starts one. -/
def joinAll (line : Line) (left right : Tree) : Tree :=
  match left with
  | .allOf l items => .allOf l (items ++ [right])
  | _ => .allOf line [left, right]

/-- What a sign makes of the operands of a level before and behind it. -/
def joining? (l : Precedence) (k : TokenKind) : Option (Line → Tree → Tree → Tree) :=
  match l, k with
  | .any, .or => some joinAny
  | .all, .and => some joinAll
  | l, k => ((operator? k).filter (·.level == l)).map fun op line => .binary line op

def bareName (name : String) : Tree :=
  .variable none name

/-- Bare names at the start of a row. If the closing token follows the last of them, the row is complete
    and the tokens after it are given; otherwise those of the next item. -/
def bareNames (close : TokenKind) : List Token → List String × Bool × List Token
  | name :: next :: rest =>
    if name.kind == .ident && next.kind == close then ([name.word], true, rest)
    else if name.kind == .ident && next.kind == .comma then
      let (names, complete, rest) := bareNames close rest
      (name.word :: names, complete, rest)
    else ([], false, name :: next :: rest)
  | ts => ([], false, ts)

def nameRow? (close : TokenKind) (ts : List Token) : Option (List String × List Token) :=
  match bareNames close ts with
  | (names, true, rest) => some (names, rest)
  | _ => none

/-- The head of a function definition: name, parameters in parentheses, arrow. -/
def functionHead? : List Token → Option (Token × List String × List Token)
  | name :: par :: rest =>
    if name.kind == .ident && par.kind == .openParen then
      match nameRow? .closeParen rest with
      | some (params, arrow :: rest) => if arrow.kind == .arrow then some (name, params, rest) else none
      | _ => none
    else none
  | _ => none

/-- Sets a named argument, in place if the name is already there. -/
def setNamed (key : String) (v : Tree) : List (String × Tree) → List (String × Tree)
  | [] => [(key, v)]
  | (k, w) :: rest => if k == key then (k, v) :: rest else (k, w) :: setNamed key v rest

mutual

/-- An expression of a level of precedence. -/
def expression (atEnd : Fault) (l : Precedence) : Nat → List Token → Except Fault (Tree × List Token)
  | 0, _ => .error .endless
  | fuel + 1, ts =>
    match l with
    | .choice => do
      let (cond, ts) ← expression atEnd .any fuel ts
      match ts with
      | t :: rest =>
        if t.kind == .cond then
          let (yes, rest) ← expression atEnd .choice fuel rest
          let (_, rest) ← expect atEnd .condElse rest
          let (no, rest) ← expression atEnd .choice fuel rest
          pure (.choice (some t.line) cond yes (some no) true, rest)
        else pure (cond, ts)
      | [] => pure (cond, ts)
    | .signed =>
      match ts with
      | t :: rest =>
        match signOp? t.kind with
        | some op => do
          let (operand, rest) ← expression atEnd .indexed fuel rest
          pure (.unary (some t.line) op operand, rest)
        | none => expression atEnd .indexed fuel ts
      | [] => .error atEnd
    | .indexed => do
      let (base, ts) ← expression atEnd .atom fuel ts
      match ts with
      | t :: rest =>
        if t.kind == .openBracket then
          let (offset, rest) ← expression atEnd .choice fuel rest
          let (_, rest) ← expect atEnd .closeBracket rest
          pure (.binary (some t.line) .index base offset, rest)
        else pure (base, ts)
      | [] => pure (base, ts)
    | .atom =>
      match ts with
      | t :: rest =>
        match t.kind with
        | .int | .float | .bool | .str | .color => .ok (.literal (some t.line) t.value, rest)
        | .openBracket => do
          let (items, rest) ← items atEnd fuel rest
          pure (.list (some t.line) items, rest)
        | .openParen => do
          let (inner, rest) ← expression atEnd .choice fuel rest
          let (_, rest) ← expect atEnd .closeParen rest
          pure (inner, rest)
        | .ident =>
          if peek rest == some .openParen then do
            let ((args, named), rest) ← arguments atEnd fuel (rest.drop 1)
            pure (.call (some t.line) t.word args named, rest)
          else .ok (.variable (some t.line) t.word, rest)
        | _ => unexpected atEnd ts
      | [] => .error atEnd
    | l => do
      let (left, ts) ← expression atEnd l.next fuel ts
      further atEnd l fuel left ts

/-- Goes on behind an operand of a level. At most one comparison stands at a level of comparisons. -/
def further (atEnd : Fault) (l : Precedence) : Nat → Tree → List Token → Except Fault (Tree × List Token)
  | 0, _, _ => .error .endless
  | fuel + 1, left, ts =>
    match ts with
    | t :: rest =>
      match joining? l t.kind with
      | some join => do
        let (right, rest) ← expression atEnd l.next fuel rest
        let joined := join (some t.line) left right
        if l == .equality || l == .order then pure (joined, rest) else further atEnd l fuel joined rest
      | none => .ok (left, ts)
    | [] => .ok (left, ts)

def items (atEnd : Fault) : Nat → List Token → Except Fault (List Tree × List Token)
  | 0, _ => .error .endless
  | fuel + 1, ts =>
    match bareNames .closeBracket ts with
    | (names, true, rest) => .ok (names.map bareName, rest)
    | (names, false, rest) => do
      let (more, rest) ← itemsRest atEnd fuel rest
      pure (names.map bareName ++ more, rest)

def itemsRest (atEnd : Fault) : Nat → List Token → Except Fault (List Tree × List Token)
  | 0, _ => .error .endless
  | fuel + 1, ts => do
    let (item, ts) ← expression atEnd .choice fuel ts
    if peek ts == some .comma then
      let (more, ts) ← itemsRest atEnd fuel (ts.drop 1)
      pure (item :: more, ts)
    else
      let (_, ts) ← expect atEnd .closeBracket ts
      pure ([item], ts)

def arguments (atEnd : Fault) : Nat → List Token → Except Fault ((List Tree × List (String × Tree)) × List Token)
  | 0, _ => .error .endless
  | fuel + 1, ts =>
    if peek ts == some .closeParen then .ok (([], []), ts.drop 1)
    else
      match bareNames .closeParen ts with
      | (names, true, rest) => .ok ((names.map bareName, []), rest)
      | (names, false, rest) => do
        let ((more, named), rest) ← argumentsRest atEnd fuel rest
        pure ((names.map bareName ++ more, named), rest)

def argumentsRest (atEnd : Fault) : Nat → List Token → Except Fault ((List Tree × List (String × Tree)) × List Token)
  | 0, _ => .error .endless
  | fuel + 1, ts =>
    if peek ts == some .ident && peek2 ts == some .define then do
      let (named, ts) ← namedRest atEnd fuel [] ts
      pure (([], named), ts)
    else do
      let (arg, ts) ← expression atEnd .choice fuel ts
      if peek ts == some .comma then
        let ((more, named), ts) ← argumentsRest atEnd fuel (ts.drop 1)
        pure ((arg :: more, named), ts)
      else
        let (_, ts) ← expect atEnd .closeParen ts
        pure (([arg], []), ts)

def namedRest (atEnd : Fault) : Nat → List (String × Tree) → List Token → Except Fault (List (String × Tree) × List Token)
  | 0, _, _ => .error .endless
  | fuel + 1, acc, ts => do
    let (name, ts) ← expect atEnd .ident ts
    let (_, ts) ← expect atEnd .define ts
    let (value, ts) ← expression atEnd .choice fuel ts
    let acc := setNamed name.word value acc
    if peek ts == some .comma then namedRest atEnd fuel acc (ts.drop 1)
    else
      let (_, ts) ← expect atEnd .closeParen ts
      pure (acc, ts)

end

mutual

def blockExpression (atEnd : Fault) : Nat → List Token → Except Fault (Tree × List Token)
  | 0, _ => .error .endless
  | fuel + 1, ts =>
    match ts with
    | t :: rest =>
      match t.kind with
      | .ifCond => do
        let (cond, rest) ← expression atEnd .choice fuel rest
        let (yes, rest) ← block atEnd fuel rest
        if peek rest == some .ifElse then
          let (no, rest) ← block atEnd fuel (rest.drop 1)
          let no := match no with
            | .empty => none
            | no => some no
          pure (.choice (some t.line) cond yes no false, rest)
        else pure (.choice (some t.line) cond yes none false, rest)
      | .forLoop => do
        let (name, rest) ← expect atEnd .ident rest
        let (_, rest) ← expect atEnd .define rest
        let (init, rest) ← expression atEnd .choice fuel rest
        let (_, rest) ← expect atEnd .forTo rest
        let (last, rest) ← expression atEnd .choice fuel rest
        let loop := Tree.loop (some t.line) (some name.line) name.word init last
        match rest with
        | by_ :: after =>
          if by_.kind == .forBy then
            pure (loop (.word by_.word), after)
          else
            let (body, rest) ← block atEnd fuel rest
            pure (loop body, rest)
        | [] => .error atEnd
      | _ => unexpected atEnd ts
    | [] => .error atEnd

def block (atEnd : Fault) : Nat → List Token → Except Fault (Tree × List Token)
  | 0, _ => .error .endless
  | fuel + 1, ts => do
    let (_, ts) ← expect atEnd .blockBegin ts
    if peek ts == some .blockEnd then pure (.empty, ts.drop 1)
    else
      let (items, ts) ← blockItems atEnd fuel ts
      pure (.block none items, ts)

def blockItems (atEnd : Fault) : Nat → List Token → Except Fault (List Tree × List Token)
  | 0, _ => .error .endless
  | fuel + 1, ts => do
    let (item, ts) ← statement atEnd fuel ts
    if peek ts == some .blockEnd then pure ([item], ts.drop 1)
    else
      let (more, ts) ← blockItems atEnd fuel ts
      pure (item :: more, ts)

def statement (atEnd : Fault) : Nat → List Token → Except Fault (Tree × List Token)
  | 0, _ => .error .endless
  | fuel + 1, ts =>
    let plain : Except Fault (Tree × List Token) := do
      let (e, ts) ← expression atEnd .choice fuel ts
      let (_, ts) ← expect atEnd .delim ts
      pure (e, ts)
    match ts with
    | t :: rest =>
      match t.kind with
      | .breakLoop | .continueLoop => do
        let _ ← expect atEnd .delim rest
        .error .unimplemented
      | .ifCond | .forLoop => blockExpression atEnd fuel ts
      | .openBracket =>
        match nameRow? .closeBracket rest with
        | some (_, rest) => do
          let (_, rest) ← expect atEnd .define rest
          let (_, rest) ← expect atEnd .openBracket rest
          let (_, rest) ← items atEnd fuel rest
          let _ ← expect atEnd .delim rest
          .error .unimplemented
        | none => plain
      | .ident =>
        match functionHead? ts with
        | some (name, params, rest) =>
          if peek rest == some .blockBegin then do
            let (body, rest) ← block atEnd fuel rest
            pure (.function (some name.line) name.word params body, rest)
          else do
            let (body, rest) ← expression atEnd .choice fuel rest
            let (_, rest) ← expect atEnd .delim rest
            pure (.function (some name.line) name.word params body, rest)
        | none =>
          match peek rest with
          | some .assign => do
            let rest := rest.drop 1
            let (e, rest) ←
              if peek rest == some .ifCond || peek rest == some .forLoop then
                blockExpression atEnd fuel rest
              else expression atEnd .choice fuel rest
            let (_, rest) ← expect atEnd .delim rest
            pure (.assign (some t.line) t.word e, rest)
          | some .define => do
            let rest := rest.drop 1
            if peek rest == some .ifCond || peek rest == some .forLoop then
              let (e, rest) ← blockExpression atEnd fuel rest
              pure (.define (some t.line) t.word e, rest)
            else
              let (e, rest) ← expression atEnd .choice fuel rest
              if peek rest == some .comma then pure (.define (some t.line) t.word e, rest.drop 1)
              else
                let (_, rest) ← expect atEnd .delim rest
                pure (.define (some t.line) t.word e, rest)
          | _ => plain
      | _ => plain
    | [] => .error atEnd

end

def statements (atEnd : Fault) (budget : Nat) : Nat → List Token → Except Fault (List Tree)
  | 0, _ => .error .endless
  | fuel + 1, ts => do
    let (item, ts) ← statement atEnd budget ts
    if ts.isEmpty then pure [item]
    else
      let more ← statements atEnd budget fuel ts
      pure (item :: more)

/-- The program that a scanned text writes; `none` if it holds no statement. -/
def program (s : Lexer.Scan) : Except Fault (Option Tree) := do
  let ts := s.tokens
  let atEnd := s.fault.getD (.script (.unexpectedToken none))
  if !ts.isEmpty then
    let items ← statements atEnd (16 * ts.length + 16) ts.length ts
    match s.fault with
    | some e => .error e
    | none => pure (some (.block none items))
  else
    match s.fault with
    | some e => .error e
    | none => pure none

def parse (cs : List Char) : Except Fault (Option Tree) :=
  program (Lexer.run cs)

end Parser

end PineEngine.Script
