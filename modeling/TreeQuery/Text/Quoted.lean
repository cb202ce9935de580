/-!
# Quoting by doubling

A text stands between two quotes, and a quote inside it is written twice. `quote` writes that form
and `unquote` reads it; `unquote_quote` says that nothing is lost.

`unquote` is the function of this name, and `quoteName` is `quote_identifier`.
-/

namespace TreeQuery.Text

/-- Every quote is written twice, all else once. -/
def double (q : Char) : List Char → List Char
  | [] => []
  | c :: cs => if c = q then q :: q :: double q cs else c :: double q cs

/-- Of two quotes in a row the second is dropped. -/
def undouble (q : Char) : List Char → List Char
  | [] => []
  | [c] => [c]
  | c :: d :: cs => if c = q ∧ d = q then q :: undouble q cs else c :: undouble q (d :: cs)

/-- The text between quotes, its own quotes doubled. -/
def quote (q : Char) (cs : List Char) : List Char :=
  q :: (double q cs ++ [q])

/-- A text between two equal quotes without them, its doubled quotes made single; any other text
as it is. -/
def unquote : List Char → List Char
  | [] => []
  | q :: cs =>
    if q = '"' ∨ q = '\'' then
      if cs.getLast? = some q then undouble q cs.dropLast else undouble q (q :: cs)
    else q :: cs

/-- The form a name takes in SQL: between double quotes. -/
def quoteName (name : String) : String :=
  String.ofList (quote '"' name.toList)

theorem undouble_cons_of_ne {q c : Char} (h : c ≠ q) (cs : List Char) :
    undouble q (c :: cs) = c :: undouble q cs := by
  cases cs with
  | nil => rfl
  | cons d ds => simp [undouble, h]

theorem undouble_double (q : Char) (cs : List Char) : undouble q (double q cs) = cs := by
  induction cs with
  | nil => rfl
  | cons c cs ih =>
    by_cases h : c = q
    · subst h; simp [double, undouble, ih]
    · simp [double, h, undouble_cons_of_ne h, ih]

theorem unquote_quote {q : Char} (hq : q = '"' ∨ q = '\'') (cs : List Char) :
    unquote (quote q cs) = cs := by
  simp [quote, unquote, hq, undouble_double]

end TreeQuery.Text
