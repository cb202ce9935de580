import TreeQuery.Query.Place

/-!
# The grammar of statements

The language of statements as a context-free grammar over tokens, independent of the automaton of
`Place`. `Derives` holds the rules of expressions: `expr p` is the nonterminal of the expressions
whose operators outside parentheses bind at level `p` or tighter, apart from what stands under a
NOT. The clauses around them are predicates on token lists, one for each clause, and `Statement`
puts them in their order.

Nothing here says how a token list is to be read, and many token lists have several derivations
(`a IS NOT b`, or two LIKE with one ESCAPE).
-/

namespace TreeQuery.Query.Grammar

/-! ## Expressions -/

/-- The level of an operator that stands between two operands. -/
def binaryLevel : Token → Option Nat
  | .keyword .or_ => some 1
  | .keyword .and_ => some 2
  | .symbol .eq | .symbol .eqEq | .symbol .notEq | .symbol .ltGt => some 4
  | .symbol .lt | .symbol .le | .symbol .gt | .symbol .ge => some 5
  | .symbol .bitAnd | .symbol .bitOr | .symbol .shiftLeft | .symbol .shiftRight => some 6
  | .symbol .plus | .symbol .minus => some 7
  | .symbol .star | .symbol .slash | .symbol .percent => some 8
  | .symbol .concat => some 9
  | _ => none

/-- The signs that stand before an operand. -/
def isSign : Token → Bool
  | .symbol .plus | .symbol .minus | .symbol .tilde => true
  | _ => false

/-- The tokens that are an operand alone, names apart. -/
def isLiteral : Token → Bool
  | .number | .singleQuoted | .doubleQuoted => true
  | .keyword .null | .keyword .currentDate | .keyword .currentTime
  | .keyword .currentTimestamp => true
  | _ => false

/-- LIKE and the words that are used like it. -/
def isLikeWord : Token → Bool
  | .keyword .like | .keyword .glob | .keyword .regexp | .keyword .match_ => true
  | _ => false

/-- The tokens that may name a function. -/
def isFunction (t : Token) : Bool :=
  t == .ident || isLikeWord t

/-- The name of a collation, or an alias after AS: a name or a quoted text. -/
def isNaming : Token → Bool
  | .ident | .singleQuoted | .doubleQuoted => true
  | _ => false

/-- NOT, or nothing. -/
def MaybeNot (w : List Token) : Prop :=
  w = [] ∨ w = [.keyword .not_]

/-- DISTINCT, or nothing. -/
def MaybeDistinct (w : List Token) : Prop :=
  w = [] ∨ w = [.keyword .distinct]

inductive Nonterminal where
  | expr (level : Nat)
  /-- An operand with the signs before it and the collations after it. -/
  | unary
  | collations
  | primary
  /-- One or more expressions with commas between them. -/
  | list
  /-- The alternatives of CASE, of which there is at least one. -/
  | whens
  /-- ELSE with its expression, or nothing. -/
  | default
  deriving DecidableEq, Repr

/-- **The rules of expressions.** -/
inductive Derives : Nonterminal → List Token → Prop where
  | not {p w} : Derives (.expr 3) w → Derives (.expr p) (.keyword .not_ :: w)
  | unary {p w} : Derives .unary w → Derives (.expr p) w
  | binary {p q u op v} : Derives (.expr p) u → binaryLevel op = some q → p ≤ q →
      Derives (.expr (q + 1)) v → Derives (.expr p) (u ++ op :: v)
  | is_ {p u n v} : p ≤ 4 → Derives (.expr p) u → MaybeNot n → Derives (.expr 5) v →
      Derives (.expr p) (u ++ .keyword .is_ :: (n ++ v))
  | inEmpty {p u n} : p ≤ 4 → Derives (.expr p) u → MaybeNot n →
      Derives (.expr p) (u ++ (n ++ [.keyword .in_, .symbol .openParen, .symbol .closeParen]))
  | inList {p u n v} : p ≤ 4 → Derives (.expr p) u → MaybeNot n → Derives .list v →
      Derives (.expr p)
        (u ++ (n ++ .keyword .in_ :: .symbol .openParen :: (v ++ [.symbol .closeParen])))
  | between {p u n v w} : p ≤ 4 → Derives (.expr p) u → MaybeNot n → Derives (.expr 5) v →
      Derives (.expr 5) w →
      Derives (.expr p) (u ++ (n ++ .keyword .between :: (v ++ .keyword .and_ :: w)))
  | like {p u n k v} : p ≤ 4 → Derives (.expr p) u → MaybeNot n → isLikeWord k →
      Derives (.expr 5) v → Derives (.expr p) (u ++ (n ++ k :: v))
  | likeEscape {p u n k v w} : p ≤ 4 → Derives (.expr p) u → MaybeNot n → isLikeWord k →
      Derives (.expr 5) v → Derives (.expr 5) w →
      Derives (.expr p) (u ++ (n ++ k :: (v ++ .keyword .escape :: w)))
  | isNull {p u} : p ≤ 4 → Derives (.expr p) u → Derives (.expr p) (u ++ [.keyword .isNull])
  | notNull {p u} : p ≤ 4 → Derives (.expr p) u → Derives (.expr p) (u ++ [.keyword .notNull])
  | notNullApart {p u} : p ≤ 4 → Derives (.expr p) u →
      Derives (.expr p) (u ++ [.keyword .not_, .keyword .null])
  | sign {s w c} : isSign s → Derives .unary w → Derives .collations c →
      Derives .unary (s :: (w ++ c))
  | primary {w c} : Derives .primary w → Derives .collations c → Derives .unary (w ++ c)
  | noCollation : Derives .collations []
  | collation {n c} : isNaming n → Derives .collations c →
      Derives .collations (.keyword .collate :: n :: c)
  | literal {t} : isLiteral t → Derives .primary [t]
  | name : Derives .primary [.ident]
  | member : Derives .primary [.ident, .symbol .dot, .ident]
  | callStar {f} : isFunction f →
      Derives .primary [f, .symbol .openParen, .symbol .star, .symbol .closeParen]
  | callEmpty {f} : isFunction f → Derives .primary [f, .symbol .openParen, .symbol .closeParen]
  | call {f d v} : isFunction f → MaybeDistinct d → Derives .list v →
      Derives .primary (f :: .symbol .openParen :: (d ++ (v ++ [.symbol .closeParen])))
  | group {v} : Derives .list v →
      Derives .primary (.symbol .openParen :: (v ++ [.symbol .closeParen]))
  | case_ {ws d} : Derives .whens ws → Derives .default d →
      Derives .primary (.keyword .case_ :: (ws ++ (d ++ [.keyword .end_])))
  | caseOf {v ws d} : Derives (.expr 1) v → Derives .whens ws → Derives .default d →
      Derives .primary (.keyword .case_ :: (v ++ (ws ++ (d ++ [.keyword .end_]))))
  | single {v} : Derives (.expr 1) v → Derives .list v
  | comma {v w} : Derives (.expr 1) v → Derives .list w →
      Derives .list (v ++ .symbol .comma :: w)
  | when_ {v w} : Derives (.expr 1) v → Derives (.expr 1) w →
      Derives .whens (.keyword .when_ :: (v ++ .keyword .then_ :: w))
  | whens {v w ws} : Derives (.expr 1) v → Derives (.expr 1) w → Derives .whens ws →
      Derives .whens (.keyword .when_ :: (v ++ .keyword .then_ :: (w ++ ws)))
  | noDefault : Derives .default []
  | default {v} : Derives (.expr 1) v → Derives .default (.keyword .else_ :: v)

/-- The expressions of a clause. -/
def Expr (w : List Token) : Prop := Derives (.expr 1) w

/-! ## Clauses -/

/-- One or more pieces with commas between them. -/
inductive Separated (P : List Token → Prop) : List Token → Prop where
  | one {w} : P w → Separated P w
  | more {w ws} : P w → Separated P ws → Separated P (w ++ .symbol .comma :: ws)

inductive Column : List Token → Prop where
  | wildcard : Column [.symbol .star]
  | expr {w} : Expr w → Column w
  | aliased {w n} : Expr w → isNaming n → Column (w ++ [.keyword .as_, n])
  | named {w} : Expr w → Column (w ++ [.ident])

inductive OrderTerm : List Token → Prop where
  | plain {w} : Expr w → OrderTerm w
  | ascending {w} : Expr w → OrderTerm (w ++ [.keyword .asc])
  | descending {w} : Expr w → OrderTerm (w ++ [.keyword .desc])

/-- What may stand between SELECT and the columns. -/
inductive Quantifier : List Token → Prop where
  | none : Quantifier []
  | distinct : Quantifier [.keyword .distinct]
  | all : Quantifier [.keyword .all]

inductive Where : List Token → Prop where
  | none : Where []
  | some {w} : Expr w → Where (.keyword .where_ :: w)

inductive GroupBy : List Token → Prop where
  | none : GroupBy []
  | some {ws} : Separated Expr ws → GroupBy (.keyword .group :: .keyword .by_ :: ws)
  | having {ws w} : Separated Expr ws → Expr w →
      GroupBy (.keyword .group :: .keyword .by_ :: (ws ++ .keyword .having :: w))

inductive OrderBy : List Token → Prop where
  | none : OrderBy []
  | some {ws} : Separated OrderTerm ws → OrderBy (.keyword .order :: .keyword .by_ :: ws)

inductive Limit : List Token → Prop where
  | none : Limit []
  | some {w} : Expr w → Limit (.keyword .limit :: w)
  | offset {w v} : Expr w → Expr v → Limit (.keyword .limit :: (w ++ .keyword .offset :: v))
  | comma {w v} : Expr w → Expr v → Limit (.keyword .limit :: (w ++ .symbol .comma :: v))

/-- **The statements.** -/
inductive Statement : List Token → Prop where
  | select {q cs path w g o l} : Quantifier q → Separated Column cs → Where w → GroupBy g →
      OrderBy o → Limit l →
      Statement (.keyword .select :: (q ++ (cs ++ .source path :: (w ++ (g ++ (o ++ l))))))

end TreeQuery.Query.Grammar
