import PineEngine.Script.Parser

/-! # Writing expressions

`Tree.spell` writes an expression as the tokens say it. An operand is enclosed in parentheses just if it belongs to a
looser level of precedence than the place where it stands. Lines, positions and texts of tokens do not matter to the
parser; `Token.symbol` is what it reads of a token, and `Tree.erased` is a tree without its lines.
-/

namespace PineEngine.Script

variable {k : TokenKind}

namespace Precedence

def rank : Precedence → Nat
  | choice => 0
  | any => 1
  | all => 2
  | equality => 3
  | order => 4
  | sum => 5
  | product => 6
  | signed => 7
  | indexed => 8
  | atom => 9

theorem rank_le (l : Precedence) : l.rank ≤ 9 := by
  cases l <;> decide

theorem rank_next {l : Precedence} (inner : l ≠ .atom) : l.next.rank = l.rank + 1 := by
  cases l <;> first | rfl | exact absurd rfl inner

theorem eq_of_rank {l k : Precedence} (same : l.rank = k.rank) : l = k := by
  cases l <;> cases k <;> first | rfl | simp [rank] at same

end Precedence

/-- The level at which a token of this kind goes on with what stands before it. -/
def TokenKind.joins? : TokenKind → Option Precedence
  | cond => some .choice
  | or => some .any
  | and => some .all
  | eq | neq => some .equality
  | gt | ge | lt | le => some .order
  | plus | minus => some .sum
  | mul | div | mod => some .product
  | openBracket => some .indexed
  | openParen => some .atom
  | _ => none

namespace BinaryOp

/-- The level that a left operand needs: sums and products are read from the left. -/
def leftLevel : BinaryOp → Precedence
  | eq | neq => .order
  | gt | ge | lt | le => .sum
  | add | sub => .sum
  | mul | div | mod => .product
  | index => .atom

def kind : BinaryOp → TokenKind
  | eq => .eq
  | neq => .neq
  | gt => .gt
  | ge => .ge
  | lt => .lt
  | le => .le
  | add => .plus
  | sub => .minus
  | mul => .mul
  | div => .div
  | mod => .mod
  | index => .openBracket

theorem joins_kind (op : BinaryOp) : op.kind.joins? = some op.level := by
  cases op <;> rfl

end BinaryOp

def UnaryOp.kind : UnaryOp → TokenKind
  | not => .not
  | plus => .plus
  | minus => .minus

deriving instance DecidableEq for Literal

inductive Symbol where
  | name (word : String)
  | constant (value : Literal)
  | sign (kind : TokenKind)
  deriving DecidableEq

def Token.symbol (t : Token) : Symbol :=
  match t.kind with
  | .ident => .name t.word
  | .int | .float | .bool | .str | .color => .constant t.value
  | k => .sign k

def TokenKind.isConstant : TokenKind → Bool
  | int | float | bool | str | color => true
  | _ => false

namespace Token

variable {t : Token}

theorem of_symbol_name {w : String} (told : t.symbol = .name w) : t.kind = .ident ∧ t.word = w := by
  unfold symbol at told
  split at told <;> simp_all

theorem of_symbol_constant {v : Literal} (told : t.symbol = .constant v) : t.kind.isConstant ∧ t.value = v := by
  unfold symbol at told
  split at told <;> simp_all [TokenKind.isConstant]

theorem of_symbol_sign (told : t.symbol = .sign k) : t.kind = k := by
  unfold symbol at told
  split at told <;> simp_all

end Token

namespace Tree

variable {t : Tree}

def level : Tree → Precedence
  | .choice _ _ _ _ _ => .choice
  | .anyOf _ _ => .any
  | .allOf _ _ => .all
  | .binary _ op _ _ => op.level
  | .unary _ _ _ => .signed
  | _ => .atom

mutual

/-- Constants, names, calls, operators, rows of conditions and inline choices. The first of a row of conditions is no
    row of the same kind, and no argument is named twice. -/
def IsExpression : Tree → Prop
  | .literal _ _ | .variable _ _ => True
  | .call _ _ args named => AreExpressions args ∧ AreNamedExpressions named ∧ (named.map Prod.fst).Nodup
  | .binary _ _ a b => a.IsExpression ∧ b.IsExpression
  | .unary _ _ a => a.IsExpression
  | .anyOf _ items => AreExpressions items ∧ ∃ a b rest, items = a :: b :: rest ∧ a.level ≠ .any
  | .allOf _ items => AreExpressions items ∧ ∃ a b rest, items = a :: b :: rest ∧ a.level ≠ .all
  | .choice _ c y (some n) true => c.IsExpression ∧ y.IsExpression ∧ n.IsExpression
  | _ => False

def AreExpressions : List Tree → Prop
  | [] => True
  | t :: rest => t.IsExpression ∧ AreExpressions rest

def AreNamedExpressions : List (String × Tree) → Prop
  | [] => True
  | (_, t) :: rest => t.IsExpression ∧ AreNamedExpressions rest

end

theorem isExpression_of_mem {ts : List Tree} (all : AreExpressions ts) (mem : t ∈ ts) :
    t.IsExpression := by
  induction ts with
  | nil => cases mem
  | cons a rest ih =>
    obtain ⟨first, later⟩ := all
    cases mem with
    | head => exact first
    | tail _ mem => exact ih later mem

/-- What is written, in parentheses if it stands where a tighter level is needed. -/
def enclosed (place own : Precedence) (symbols : List Symbol) : List Symbol :=
  if own.rank < place.rank then .sign .openParen :: symbols ++ [.sign .closeParen] else symbols

mutual

def spell : Tree → List Symbol
  | .literal _ v => [.constant v]
  | .variable _ name => [.name name]
  | .call _ name args named =>
    .name name :: .sign .openParen ::
      [.sign .comma].intercalate (spellEach .choice args ++ spellNamed named) ++ [.sign .closeParen]
  | .binary _ .index a b =>
    enclosed .atom a.level a.spell ++ .sign .openBracket :: b.spell ++ [.sign .closeBracket]
  | .binary _ op a b =>
    enclosed op.leftLevel a.level a.spell ++ .sign op.kind :: enclosed op.level.next b.level b.spell
  | .unary _ op a => .sign op.kind :: enclosed .indexed a.level a.spell
  | .anyOf _ items => [.sign .or].intercalate (spellEach .all items)
  | .allOf _ items => [.sign .and].intercalate (spellEach .equality items)
  | .choice _ c y (some n) _ =>
    enclosed .any c.level c.spell ++ .sign .cond :: y.spell ++ .sign .condElse :: n.spell
  | _ => []

/-- Expressions in a row, each in parentheses if it is looser than the place. -/
def spellEach (place : Precedence) : List Tree → List (List Symbol)
  | [] => []
  | t :: rest => enclosed place t.level t.spell :: spellEach place rest

def spellNamed : List (String × Tree) → List (List Symbol)
  | [] => []
  | (k, t) :: rest => (.name k :: .sign .define :: t.spell) :: spellNamed rest

end

/-- An expression as tokens say it at a place that needs a level. -/
def spellAt (place : Precedence) (t : Tree) : List Symbol :=
  enclosed place t.level t.spell

theorem spellAt_choice (t : Tree) : t.spellAt .choice = t.spell := by
  simp [spellAt, enclosed, Precedence.rank]

theorem spell_binary {line : Line} {op : BinaryOp} {a b : Tree} (between : op ≠ .index) :
    (binary line op a b).spell = a.spellAt op.leftLevel ++ .sign op.kind :: b.spellAt op.level.next := by
  cases op <;> first | rfl | exact absurd rfl between

mutual

def erased : Tree → Tree
  | .block _ items => .block none (erasedEach items)
  | .literal _ v => .literal none v
  | .list _ items => .list none (erasedEach items)
  | .anyOf _ items => .anyOf none (erasedEach items)
  | .allOf _ items => .allOf none (erasedEach items)
  | .binary _ op a b => .binary none op a.erased b.erased
  | .unary _ op a => .unary none op a.erased
  | .variable _ name => .variable none name
  | .call _ name args named => .call none name (erasedEach args) (erasedNamed named)
  | .choice _ c y none inline => .choice none c.erased y.erased none inline
  | .choice _ c y (some n) inline => .choice none c.erased y.erased (some n.erased) inline
  | .loop _ _ counter first last body => .loop none none counter first.erased last.erased body.erased
  | .function _ name params body => .function none name params body.erased
  | .define _ name e => .define none name e.erased
  | .assign _ name e => .assign none name e.erased
  | .inlined name params args body => .inlined name params (erasedEach args) body.erased
  | .empty => .empty
  | .word text => .word text

def erasedEach : List Tree → List Tree
  | [] => []
  | t :: rest => t.erased :: erasedEach rest

def erasedNamed : List (String × Tree) → List (String × Tree)
  | [] => []
  | (k, t) :: rest => (k, t.erased) :: erasedNamed rest

end

theorem erasedEach_append (ts us : List Tree) : erasedEach (ts ++ us) = erasedEach ts ++ erasedEach us := by
  induction ts with
  | nil => rfl
  | cons t ts ih => simp only [List.cons_append, erasedEach, ih]

theorem level_erased (t : Tree) : t.erased.level = t.level := by
  cases t <;> try rfl
  next no _ => cases no <;> rfl

/-- The start of an expression that is more than a name: a constant, a sign that can stand before an operand, or a name
    with a sign behind it that goes on. -/
def Leads : List Symbol → Prop
  | .constant _ :: _ => True
  | .sign k :: _ => k = .openParen ∨ (Parser.signOp? k).isSome
  | .name _ :: .sign k :: _ => k.joins?.isSome
  | _ => False

theorem Leads.append {ms : List Symbol} (leads : Leads ms) (more : List Symbol) : Leads (ms ++ more) := by
  match ms, leads with
  | .constant _ :: _, _ => trivial
  | .sign _ :: _, leads => exact leads
  | .name _ :: .sign _ :: _, leads => exact leads

/-- An expression is a name alone, or begins as more than a name. -/
def Begins (t : Tree) : Prop :=
  (∃ line name, t = .variable line name) ∨ Leads t.spell

theorem Begins.enclosed (begins : t.Begins) (place : Precedence) (goesOn : k.joins?.isSome)
    (more : List Symbol) : Leads (t.spellAt place ++ .sign k :: more) := by
  unfold spellAt Tree.enclosed
  split
  · exact .inl rfl
  · obtain ⟨line, name, rfl⟩ | leads := begins
    · exact goesOn
    · exact leads.append _

theorem Begins.row (begins : t.Begins) (place : Precedence) (goesOn : k.joins?.isSome)
    (u : Tree) (us : List Tree) : Leads ([.sign k].intercalate (spellEach place (t :: u :: us))) := by
  exact begins.enclosed place goesOn _

theorem begins (t : Tree) (expr : t.IsExpression) : t.Begins := by
  match t, expr with
  | .literal _ _, _ => exact .inr trivial
  | .variable line name, _ => exact .inl ⟨line, name, rfl⟩
  | .call _ _ _ _, _ => exact .inr rfl
  | .binary _ op a b, expr =>
    right
    have goesOn : op.kind.joins?.isSome := by rw [op.joins_kind]; rfl
    by_cases index : op = .index
    · subst index
      simp only [spell, List.append_assoc]
      exact (begins a expr.1).enclosed .atom goesOn _
    · rw [spell_binary index]
      exact (begins a expr.1).enclosed _ goesOn _
  | .unary _ op a, _ =>
    right
    exact .inr (by cases op <;> rfl)
  | .anyOf _ (a :: b :: _), expr =>
    exact .inr ((begins a expr.1.1).row .all rfl b _)
  | .allOf _ (a :: b :: _), expr =>
    exact .inr ((begins a expr.1.1).row .equality rfl b _)
  | .choice _ c y (some n) true, expr =>
    right
    simp only [spell, List.append_assoc]
    exact (begins c expr.1).enclosed .any rfl _
  | .anyOf _ [], expr | .anyOf _ [_], expr | .allOf _ [], expr | .allOf _ [_], expr =>
    obtain ⟨_, _, _, _, same, _⟩ := expr
    simp at same

end Tree

end PineEngine.Script
