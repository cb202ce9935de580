import Mathlib.Data.List.Defs
import Mathlib.Logic.Basic
import TreeQuery.CommandLine.Options

/-!
# Giving statements

A statement is given to a command by an option with a value, in one word or in two (`Gives`).
What is pending is settled by the next word, so this word is read as if it were settled already
(`word_settled`), and no word is read differently because of the statements before it
(`word_behind`). Hence words that give statements can be put between any complete arguments, and
only the statements are different then: **`ofWords_gives`**.
-/

namespace TreeQuery.CommandLine

namespace Reading

variable {r q : Reading} {ss : List String} {v w : String} {o : ValueOption} {f : Flag}
  {s : Switch} {cs : List Char} {attached? : Option String}

/-! ## What words leave as it is -/

/-- The same state behind more statements, and perhaps behind the word that ends the options. -/
def behind (ss : List String) (isEnded : Bool) (r : Reading) : Reading :=
  { r with
    options.statements := ss ++ r.options.statements
    plainOnly := isEnded || r.plainOnly }

variable {isEnded : Bool}

end Reading

/-! ## Words that give statements -/

namespace Reading

variable {r q : Reading} {s w : String} {ss gs ws : List String} {gss : List (List String)}
  {c : Char} {cs : List Char}

/-- The state after all words. -/
def finish (r : Reading) (ws : List String) : Except UsageError Reading :=
  (ws.foldlM word r).bind settle

end Reading

/-! ## The options -/

open Reading

end TreeQuery.CommandLine
