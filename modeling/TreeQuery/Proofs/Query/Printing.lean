import TreeQuery.Proofs.Query.FragmentText
import TreeQuery.Proofs.Query.Spacing
import TreeQuery.Query.Request

/-!
# Printing a statement

`Statement.print` writes a statement down in one canonical form: its clauses in their order, every
fragment as it is, aliases between double quotes and the path between single quotes. The two
schemes of quoting differ. In an alias a quote is written twice, and in a path a backslash stands
before a quote or a backslash.

`Prints cs ls` says that the characters `cs` are cut into the tokens and texts of the lexemes `ls`
before everything that may follow a fragment. Each part of a layout is printed as lexemes that are
laid out as the same part, so that a statement that was read is read again from its printed form.

Result: **`ofText_print`**.
-/

namespace TreeQuery.Query

/-! ## Quoted targets -/

/-- A backslash before every quote of a kind and every backslash. -/
def escapeTarget (q : Char) (path : List Char) : List Char :=
  path.flatMap fun c => if c = q ∨ c = '\\' then ['\\', c] else [c]

/-- A path between two quotes of a kind. -/
def quoteTarget (q : Char) (path : String) : String :=
  String.ofList (q :: (escapeTarget q path.toList ++ [q]))

theorem quotedTarget_escapeTarget (q : Char) (path : List Char) :
    Form.QuotedTarget q path (escapeTarget q path ++ [q]) := by
  induction path with
  | nil => exact .close
  | cons c path ih =>
    rw [escapeTarget, List.flatMap_cons]
    split
    · exact .escaped ih
    · rename_i hc
      exact .char (fun h => hc (.inl h)) (fun h => hc (.inr h)) ih

/-- The word FROM and a path between quotes are a written form of that path. -/
theorem written_quoteTarget {q : Char} (hq : q = '"' ∨ q = '\'') (path : String) {w : List Char}
    (hw : Form.From w) :
    Token.Written (.source path) (w ++ ' ' :: (quoteTarget q path).toList) := by
  have htarget : Form.Target path.toList (quoteTarget q path).toList := by
    rw [quoteTarget, String.toList_ofList]
    exact .quoted hq (quotedTarget_escapeTarget q path.toList)
  have hspace : ∀ d ∈ [' '], Text.isBlank d := List.all_eq_true.mp rfl
  have hwritten := Token.Written.source hw hspace htarget fun h => nomatch h
  rwa [String.ofList_toList, List.singleton_append] at hwritten

/-! ## The printed form -/

/-- A column with its alias between double quotes. -/
def Column.print : Column String → String
  | wildcard => "*"
  | expr text (some name) => text ++ " AS " ++ Text.quoteName name
  | expr text none => text

/-- **The canonical text of a statement.** -/
def Statement.print (s : Statement String) : String :=
  "SELECT " ++ s.distinctWord ++ ", ".intercalate (s.columns.map Column.print) ++
    " FROM " ++ quoteTarget '\'' s.path ++
    Request.optionalClause " WHERE " s.predicate "" ++
    Request.listClause " GROUP BY " s.groupBy ++
    Request.optionalClause " HAVING " s.having "" ++
    Request.listClause " ORDER BY " s.orderBy ++
    Request.optionalClause " LIMIT " s.limit "" ++
    Request.optionalClause " OFFSET " s.offset ""

theorem Layout.congr {s : Statement Fragment} {ls ms : List Lexeme} (h : Layout s ls)
    (heq : ls.map Lexeme.spelling = ms.map Lexeme.spelling) : Layout s ms := by
  rw [← ofLexemes_eq_ok_iff] at h ⊢
  exact (ofLexemes_alike heq).eq_ok h

/-! ## Texts of lexemes -/

/-- A lexeme at no place in particular. -/
def lexeme (t : Token) (text : List Char) : Lexeme :=
  ⟨t, 0, text⟩

theorem spelling_lexeme (t : Token) (text : List Char) : (lexeme t text).spelling = (t, text) := rfl

/-- **The characters are cut into the lexemes** before everything that may follow a fragment. -/
def Prints (cs : List Char) (ls : List Lexeme) : Prop :=
  ∀ ⦃rest ws⦄, (∀ d ∈ rest.head?, endsFragment d) → Lexes rest ws →
    Lexes (cs ++ rest) (ls.map Lexeme.spelling ++ ws)

namespace Prints

variable {cs ds : List Char} {ls ms : List Lexeme}

theorem nil : Prints [] [] :=
  fun _ _ _ h => h

theorem append (h : Prints cs ls) (hds : ∀ d ∈ ds.head?, endsFragment d) (h' : Prints ds ms) :
    Prints (cs ++ ds) (ls ++ ms) := by
  intro rest ws hrest hws
  rw [List.append_assoc, List.map_append, List.append_assoc]
  exact h (forall_mem_head?_append hds hrest) (h' hrest hws)

theorem blank (h : Prints cs ls) : Prints (' ' :: cs) ls :=
  fun _ _ hrest hws => .gap rfl (h hrest hws)

/-- Texts with a blank between them. -/
theorem spaced (h : Prints cs ls) (h' : Prints ds ms) : Prints (cs ++ ' ' :: ds) (ls ++ ms) :=
  h.append (by simp [endsFragment]) h'.blank

theorem of_written {t : Token} {text : List Char} (h : t.Written text)
    (hend : ∀ d, endsFragment d → t.mayPrecede text d) : Prints text [lexeme t text] :=
  fun _ _ hrest hws => .of_written h (fun d hd => hend d (hrest d hd)) hws

theorem of_word {w : Word} (h : w.Legible) : Prints w.text [lexeme w.token w.text] :=
  of_written h.written fun _ hd => (h.precedes hd).mayPrecede

theorem keyword {k : Keyword} {w : List Char} (h : w.map Char.toLower = k.word.toList) :
    Prints w [lexeme (.keyword k) w] :=
  of_written (.keyword h) fun d hd => by
    simpa [Token.mayPrecede] using (Sql.endsFragment_ne hd).1

theorem comma (h : Prints cs ls) :
    Prints (',' :: ' ' :: cs) (lexeme (.symbol .comma) [','] :: ls) := by
  intro rest ws hrest hws
  have hcut : Lexes (' ' :: (cs ++ rest)) (ls.map Lexeme.spelling ++ ws) := .gap rfl (h hrest hws)
  exact Lexes.of_written (.symbol .comma) (by simp [Token.mayPrecede]; decide) hcut

/-- A name between double quotes. -/
theorem quoteName (name : String) :
    Prints (Text.quoteName name).toList
      [lexeme .doubleQuoted (Text.quoteName name).toList] := by
  refine of_written (written_quoteName name) fun d hd => ?_
  have hquote := (Sql.endsFragment_ne hd).2.2.1
  rw [Token.mayPrecede, bne_iff_ne]
  rintro rfl
  exact hquote rfl

/-- The word FROM and a path between quotes. -/
theorem source {q : Char} (hq : q = '"' ∨ q = '\'') (path : String) {w : List Char}
    (hw : Form.From w) :
    Prints (w ++ ' ' :: (quoteTarget q path).toList)
      [lexeme (.source path) (w ++ ' ' :: (quoteTarget q path).toList)] := by
  have htext : (quoteTarget q path).toList = q :: (escapeTarget q path.toList ++ [q]) :=
    String.toList_ofList
  have hlast : (w ++ ' ' :: (quoteTarget q path).toList).getLast? = some q := by
    simp [htext, List.getLast?_append, List.getLast?_cons]
  have hend : ∀ d, endsFragment d →
      Token.mayPrecede (.source path) (w ++ ' ' :: (quoteTarget q path).toList) d := by
    intro d hd
    have hquote : d ≠ q := by
      rintro rfl
      rcases hq with rfl | rfl <;> exact (Sql.endsFragment_ne hd).2.2.1 rfl
    rw [Token.mayPrecede, endsTarget, hlast]
    rcases hq with rfl | rfl <;> simp [hquote]
  exact of_written (written_quoteTarget hq path hw) hend

end Prints

/-! ## The parts of a statement -/

/-- The lexemes of a fragment's words. -/
def Fragment.lexemes (f : Fragment) : List Lexeme :=
  f.map fun w => lexeme w.token w.text

theorem Fragment.spells_lexemes (f : Fragment) : f.Spells f.lexemes := by
  simp [Fragment.Spells, Fragment.lexemes, lexeme, Lexeme.spelling, Word.spelling]

theorem Fragment.Legible.prints {f : Fragment} (h : f.Legible) :
    Prints f.text.toList f.lexemes := by
  have htext : f.text.toList = f.chars := String.toList_ofList
  have hspelling : f.map Word.spelling = f.lexemes.map Lexeme.spelling := f.spells_lexemes
  intro rest ws hrest hws
  rw [htext, ← hspelling]
  exact h.lexes hrest hws

namespace Layout

variable {ls : List Lexeme}

/-- A relation between parts of a statement and lexemes can be printed if every part that was read
is written as lexemes of the same part. -/
def Printable {α : Type} (R : α → List Lexeme → Prop) (text : α → String) : Prop :=
  ∀ a ls, R a ls → AllWritten ls → ∃ ms, R a ms ∧ Prints (text a).toList ms

theorem Expr.printable : Printable Expr Fragment.text := by
  intro f ls h hls
  exact ⟨f.lexemes, ⟨h.1, f.spells_lexemes⟩, (h.legible hls).prints⟩

theorem OrderTerm.printable : Printable OrderTerm Fragment.text := by
  intro f ls h hls
  refine ⟨f.lexemes, ?_, (h.legible hls).prints⟩
  cases h with
  | plain h => exact .plain ⟨h.1, f.spells_lexemes⟩
  | @directed f ls l h hl =>
    have hterm := OrderTerm.directed (l := lexeme l.token l.text) ⟨h.1, f.spells_lexemes⟩ hl
    simpa [Fragment.lexemes, lexeme] using hterm

theorem Separated.printable {α : Type} {R : α → List Lexeme → Prop} {text : α → String}
    (hR : Printable R text) :
    Printable (Separated R) fun as => ", ".intercalate (as.map text) := by
  intro as ls h hls
  induction h with
  | one ha =>
    obtain ⟨ms, hms, hprints⟩ := hR _ _ ha hls
    exact ⟨ms, .one hms, by simpa using hprints⟩
  | @more a as ls ms c ha hc has ih =>
    obtain ⟨hleft, hright⟩ := List.forall_mem_append.mp hls
    obtain ⟨ls', ha', hprints⟩ := hR _ _ ha hleft
    obtain ⟨ms', has', hrest⟩ := ih (List.forall_mem_cons.mp hright).2
    refine ⟨ls' ++ lexeme (.symbol .comma) [','] :: ms', .more ha' rfl has', ?_⟩
    obtain ⟨b, bs, rfl⟩ : ∃ b bs, as = b :: bs := by
      cases has <;> exact ⟨_, _, rfl⟩
    have happend := hprints.append (by simp [endsFragment]) hrest.comma
    simpa [String.toList_append] using happend

theorem nameOf_quoteName (name : String) :
    nameOf (lexeme .doubleQuoted (Text.quoteName name).toList) = name := by
  have htext : (Text.quoteName name).toList = Text.quote '"' name.toList := String.toList_ofList
  rw [nameOf, lexeme, htext, Text.unquote_quote (.inl rfl), String.ofList_toList]

/-- Every alias is written after AS and between double quotes. -/
theorem Column.exists_aliased {f : Fragment} (h : Expr f ls) (hls : AllWritten ls)
    (name : String) :
    ∃ ms, Column (.expr f (some name)) ms ∧
      Prints (Column.print (.expr f.text (some name))).toList ms := by
  obtain ⟨ms, hms, hprints⟩ := Expr.printable _ _ h hls
  have hcolumn := Column.aliased (a := lexeme (.keyword .as_) "AS".toList)
    (n := lexeme .doubleQuoted (Text.quoteName name).toList) hms rfl rfl
  rw [nameOf_quoteName] at hcolumn
  refine ⟨_, hcolumn, ?_⟩
  have has : Prints "AS".toList [lexeme (.keyword .as_) "AS".toList] := .keyword (by decide)
  simpa [Query.Column.print, String.toList_append] using
    hprints.spaced (has.spaced (.quoteName name))

theorem Column.printable : Printable Column fun c => (c.map Fragment.text).print := by
  intro c ls h hls
  cases h with
  | wildcard =>
    have hstar : Word.Legible ⟨.symbol .star, ['*'], false⟩ :=
      ⟨.symbol .star, by decide, fun h => nomatch h⟩
    exact ⟨_, .wildcard rfl, .of_word hstar⟩
  | expr h =>
    obtain ⟨ms, hms, hprints⟩ := Expr.printable _ _ h hls
    exact ⟨ms, .expr hms, hprints⟩
  | aliased h => exact Column.exists_aliased h (List.forall_mem_append.mp hls).1 _
  | named h => exact Column.exists_aliased h (List.forall_mem_append.mp hls).1 _

end Layout

/-! ### Clauses -/

/-- The text of some clauses, which may follow every fragment. -/
structure PrintsClauses (cs : List Char) (ls : List Lexeme) : Prop where
  prints : Prints cs ls
  head : ∀ d ∈ cs.head?, endsFragment d

namespace PrintsClauses

variable {cs ds : List Char} {ls ms : List Lexeme}

theorem nil : PrintsClauses [] [] :=
  ⟨.nil, forall_mem_head?_nil⟩

theorem append (h : PrintsClauses cs ls) (h' : PrintsClauses ds ms) :
    PrintsClauses (cs ++ ds) (ls ++ ms) :=
  ⟨h.prints.append h'.head h'.prints, forall_mem_head?_append h.head h'.head⟩

/-- A clause that is not there. -/
theorem append_none (h : PrintsClauses cs ls) (lead : String) :
    PrintsClauses (cs ++ (Request.optionalClause lead none "").toList) ls := by
  have hempty : (Request.optionalClause lead none "").toList = [] := by
    simp [Request.optionalClause]
  rw [hempty, List.append_nil]
  exact h

/-- A clause that begins with a keyword. -/
theorem of_keyword {k : Keyword} {w : String} (hw : w.toList.map Char.toLower = k.word.toList)
    (h : Prints cs ls) :
    PrintsClauses (' ' :: (w.toList ++ ' ' :: cs)) (lexeme (.keyword k) w.toList :: ls) :=
  ⟨((Prints.keyword hw).spaced h).blank, by simp [endsFragment]⟩

/-- A clause of one fragment. -/
theorem optional (k : Keyword) (w lead : String) {text : String}
    (hw : w.toList.map Char.toLower = k.word.toList)
    (hlead : lead.toList = ' ' :: (w.toList ++ [' ']))
    (h : Prints text.toList ls) :
    PrintsClauses (Request.optionalClause lead (some text) "").toList
      (lexeme (.keyword k) w.toList :: ls) := by
  have hclause := of_keyword hw h
  simpa [Request.optionalClause, String.toList_append, hlead] using hclause

/-- A clause of several fragments. -/
theorem listing (k : Keyword) (w lead : String) {texts : List String} (hne : texts ≠ [])
    (hw : w.toList.map Char.toLower = k.word.toList)
    (hlead : lead.toList = ' ' :: (w.toList ++ ' ' :: ("BY".toList ++ [' '])))
    (h : Prints (", ".intercalate texts).toList ls) :
    PrintsClauses (Request.listClause lead texts).toList
      (lexeme (.keyword k) w.toList :: lexeme (.keyword .by_) "BY".toList :: ls) := by
  have hby : Prints "BY".toList [lexeme (.keyword .by_) "BY".toList] := .keyword (by decide)
  have hclause := of_keyword hw (hby.spaced h)
  have htext : Request.listClause lead texts = lead ++ ", ".intercalate texts := by
    cases texts with
    | nil => exact absurd rfl hne
    | cons => rfl
  rw [htext, String.toList_append, hlead]
  simpa using hclause

end PrintsClauses

namespace Layout

variable {ls : List Lexeme}

theorem Separated.ne_nil {α : Type} {R : α → List Lexeme → Prop} {as : List α}
    (h : Separated R as ls) : as ≠ [] := by
  cases h <;> exact List.cons_ne_nil _ _

theorem Where.printable {p : Option Fragment} (h : Where p ls) (hls : AllWritten ls) :
    ∃ ms, Where p ms ∧
      PrintsClauses (Request.optionalClause " WHERE " (p.map Fragment.text) "").toList ms := by
  cases h with
  | none => exact ⟨[], .none, .nil⟩
  | some _ h =>
    obtain ⟨ms, hms, hprints⟩ := Expr.printable _ _ h (List.forall_mem_cons.mp hls).2
    exact ⟨_, .some rfl hms, .optional .where_ "WHERE" " WHERE " (by decide) (by decide) hprints⟩

theorem GroupBy.printable {g : List Fragment} {k : Option Fragment} (h : GroupBy g k ls)
    (hls : AllWritten ls) :
    ∃ ms, GroupBy g k ms ∧
      PrintsClauses ((Request.listClause " GROUP BY " (g.map Fragment.text)).toList ++
        (Request.optionalClause " HAVING " (k.map Fragment.text) "").toList) ms := by
  cases h with
  | none => exact ⟨[], .none, .nil⟩
  | some _ _ hfs =>
    obtain ⟨ms, hms, hprints⟩ := Separated.printable Expr.printable _ _ hfs
      (List.forall_mem_cons.mp (List.forall_mem_cons.mp hls).2).2
    have hgroup := PrintsClauses.listing .group "GROUP" " GROUP BY "
      (by simpa using hfs.ne_nil) (by decide) (by decide) hprints
    exact ⟨_, .some rfl rfl hms, hgroup.append_none _⟩
  | having _ _ hfs _ h =>
    obtain ⟨hlist, hcond⟩ := List.forall_mem_append.mp
      (List.forall_mem_cons.mp (List.forall_mem_cons.mp hls).2).2
    obtain ⟨ms, hms, hprints⟩ := Separated.printable Expr.printable _ _ hfs hlist
    obtain ⟨ns, hns, hprints'⟩ := Expr.printable _ _ h (List.forall_mem_cons.mp hcond).2
    have hgroup := PrintsClauses.listing .group "GROUP" " GROUP BY "
      (by simpa using hfs.ne_nil) (by decide) (by decide) hprints
    have hhaving := PrintsClauses.optional .having "HAVING" " HAVING " (by decide)
      (by decide) hprints'
    exact ⟨_, .having rfl rfl hms rfl hns, hgroup.append hhaving⟩

theorem OrderBy.printable {o : List Fragment} (h : OrderBy o ls) (hls : AllWritten ls) :
    ∃ ms, OrderBy o ms ∧
      PrintsClauses (Request.listClause " ORDER BY " (o.map Fragment.text)).toList ms := by
  cases h with
  | none => exact ⟨[], .none, .nil⟩
  | some _ _ hfs =>
    obtain ⟨ms, hms, hprints⟩ := Separated.printable OrderTerm.printable _ _ hfs
      (List.forall_mem_cons.mp (List.forall_mem_cons.mp hls).2).2
    have horder := PrintsClauses.listing .order "ORDER" " ORDER BY "
      (by simpa using hfs.ne_nil) (by decide) (by decide) hprints
    exact ⟨_, .some rfl rfl hms, horder⟩

/-- Of two numbers the limit is printed first, however they were written. -/
theorem Limit.exists_offset {f g : Fragment} {ls ms : List Lexeme} (hf : Expr f ls)
    (hls : AllWritten ls) (hg : Expr g ms) (hms : AllWritten ms) :
    ∃ ns, Limit (Option.some f) (Option.some g) ns ∧
      PrintsClauses ((Request.optionalClause " LIMIT " (Option.some f.text) "").toList ++
        (Request.optionalClause " OFFSET " (Option.some g.text) "").toList) ns := by
  obtain ⟨ls', hls', hprints⟩ := Expr.printable _ _ hf hls
  obtain ⟨ms', hms', hprints'⟩ := Expr.printable _ _ hg hms
  have hlimit := PrintsClauses.optional .limit "LIMIT" " LIMIT " (by decide) (by decide)
    hprints
  have hoffset := PrintsClauses.optional .offset "OFFSET" " OFFSET " (by decide)
    (by decide) hprints'
  exact ⟨_, .offset rfl hls' rfl hms', hlimit.append hoffset⟩

theorem Limit.printable {n k : Option Fragment} (h : Limit n k ls) (hls : AllWritten ls) :
    ∃ ms, Limit n k ms ∧
      PrintsClauses ((Request.optionalClause " LIMIT " (n.map Fragment.text) "").toList ++
        (Request.optionalClause " OFFSET " (k.map Fragment.text) "").toList) ms := by
  cases h with
  | none => exact ⟨[], .none, .nil⟩
  | some _ h =>
    obtain ⟨ms, hms, hprints⟩ := Expr.printable _ _ h (List.forall_mem_cons.mp hls).2
    have hlimit := PrintsClauses.optional .limit "LIMIT" " LIMIT " (by decide)
      (by decide) hprints
    exact ⟨_, .some rfl hms, hlimit.append_none _⟩
  | offset _ hf _ hg =>
    obtain ⟨hleft, hright⟩ := List.forall_mem_append.mp (List.forall_mem_cons.mp hls).2
    exact exists_offset hf hleft hg (List.forall_mem_cons.mp hright).2
  | comma _ hf _ hg =>
    obtain ⟨hleft, hright⟩ := List.forall_mem_append.mp (List.forall_mem_cons.mp hls).2
    exact exists_offset hg (List.forall_mem_cons.mp hright).2 hf hleft

/-- The columns, perhaps after DISTINCT. -/
theorem Quantifier.printable {d : Bool} {q cl : List Lexeme} {cs : List (Query.Column Fragment)}
    (h : Quantifier d q) (hcs : Separated Column cs cl) (hls : AllWritten cl) :
    ∃ q' ms, Quantifier d q' ∧ Separated Column cs ms ∧
      Prints ((if d then "DISTINCT " else "").toList ++
        (", ".intercalate (cs.map fun c => (c.map Fragment.text).print)).toList) (q' ++ ms) := by
  obtain ⟨ms, hms, hprints⟩ := Separated.printable Column.printable _ _ hcs hls
  cases h with
  | none | all => exact ⟨[], ms, .none, hms, by simpa using hprints⟩
  | distinct =>
    have hword : Prints "DISTINCT".toList [lexeme (.keyword .distinct) "DISTINCT".toList] :=
      .keyword (by decide)
    exact ⟨_, ms, .distinct rfl, hms, by simpa using hword.spaced hprints⟩

end Layout

/-! ## Whole statements -/

theorem Statement.print_toList (s : Statement String) : s.print.toList = "SELECT".toList ++
    ' ' :: (((if s.distinct then "DISTINCT " else "").toList ++
      (", ".intercalate (s.columns.map Column.print)).toList) ++
    ' ' :: (("FROM".toList ++ ' ' :: (quoteTarget '\'' s.path).toList) ++
      ((Request.optionalClause " WHERE " s.predicate "").toList ++
      (((Request.listClause " GROUP BY " s.groupBy).toList ++
        (Request.optionalClause " HAVING " s.having "").toList) ++
      ((Request.listClause " ORDER BY " s.orderBy).toList ++
      ((Request.optionalClause " LIMIT " s.limit "").toList ++
        (Request.optionalClause " OFFSET " s.offset "").toList)))))) := by
  -- the parts as variables, since simp would compare the literals with one another
  have hparts : ∀ a b c d e f g h i j k : String,
      (a ++ b ++ c ++ d ++ e ++ f ++ g ++ h ++ i ++ j ++ k).toList =
        a.toList ++ ((b.toList ++ c.toList) ++ (d.toList ++ (e.toList ++ (f.toList ++
          ((g.toList ++ h.toList) ++ (i.toList ++ (j.toList ++ k.toList))))))) := by
    simp
  have hselect : ∀ cs, "SELECT ".toList ++ cs = "SELECT".toList ++ ' ' :: cs :=
    fun cs => List.append_assoc "SELECT".toList [' '] cs
  have hfrom : ∀ path cs : List Char, " FROM ".toList ++ (path ++ cs) =
      ' ' :: (("FROM".toList ++ ' ' :: path) ++ cs) := by
    intro path cs
    rw [List.append_assoc]
    exact List.append_assoc (' ' :: "FROM".toList) [' '] (path ++ cs)
  refine (hparts ..).trans ((hselect _).trans ?_)
  exact congrArg (fun cs => "SELECT".toList ++ ' ' :: (_ ++ cs)) (hfrom _ _)

/-- **A layout is printed as lexemes of the same layout.** -/
theorem Layout.exists_lexes {o : Statement Fragment} {ls : List Lexeme} (h : Layout o ls)
    (hls : AllWritten ls) :
    ∃ ms, Layout o ms ∧ Lexes (o.map Fragment.text).print.toList (ms.map Lexeme.spelling) := by
  cases h with
  | @select s src d q cs cl path p w g k gl o ol n m ll hs hq hcs hsrc hw hg ho hl =>
  simp only [AllWritten, List.forall_mem_cons, List.forall_mem_append] at hls
  obtain ⟨-, -, hcl, -, hwl, hgl, hol, hll⟩ := hls
  obtain ⟨q', cl', hq', hcs', hcolumns⟩ := hq.printable hcs hcl
  obtain ⟨w', hw', hwhere⟩ := hw.printable hwl
  obtain ⟨gl', hg', hgroup⟩ := hg.printable hgl
  obtain ⟨ol', ho', horder⟩ := ho.printable hol
  obtain ⟨ll', hl', hlimit⟩ := hl.printable hll
  have hselect : Prints "SELECT".toList [lexeme (.keyword .select) "SELECT".toList] :=
    .keyword (by decide)
  have hfrom : Form.From "FROM".toList := by decide
  have hclauses := hwhere.append (hgroup.append (horder.append hlimit))
  have hprints := hselect.spaced (hcolumns.spaced
    ((Prints.source (.inr rfl) path hfrom).append hclauses.head hclauses.prints))
  have hlayout : Layout ⟨path, d, cs, p, g, k, o, n, m⟩
      (lexeme (.keyword .select) "SELECT".toList :: (q' ++ (cl' ++
        lexeme (.source path) ("FROM".toList ++ ' ' :: (quoteTarget '\'' path).toList) ::
          (w' ++ (gl' ++ (ol' ++ ll')))))) :=
    .select rfl hq' hcs' rfl hw' hg' ho' hl'
  have hlexes := hprints forall_mem_head?_nil .nil
  rw [List.append_nil, List.append_nil] at hlexes
  refine ⟨_, hlayout, ?_⟩
  rw [Statement.print_toList]
  simp only [Statement.map, List.map_map, Function.comp_def, List.append_assoc, List.cons_append,
    List.nil_append] at hlexes ⊢
  exact hlexes

/-- **Reading undoes printing** for every statement that was read. -/
theorem ofText_print {text : String} {s : Statement String} (h : Statement.ofText text = .ok s) :
    Statement.ofText s.print = .ok s := by
  obtain ⟨o, ls, hls, hlayout, rfl⟩ := ofText_eq_ok_iff.mp h
  obtain ⟨ms, hms, hlexes⟩ := hlayout.exists_lexes (allWritten_of_tokenize hls)
  obtain ⟨again, hagain, hspelling⟩ := exists_tokenize_iff.mpr hlexes
  exact ofText_eq_ok_iff.mpr ⟨o, again, hagain, hms.congr hspelling.symm, rfl⟩

/-- An empty alias, one with both quotes, and a path with a quote, a backslash and a line feed. -/
theorem ofText_print_quotes :
    ∃ s, Statement.ofText "select a as \"\", b as '\"''' from \"it's\\\\\n\" limit 2, -1" = .ok s ∧
      s.print =
        "SELECT a AS \"\", b AS \"\"\"'\" FROM 'it\\'s\\\\\n' LIMIT -1 OFFSET 2" ∧
      Statement.ofText s.print = .ok s := by
  have hread : Statement.ofText "select a as \"\", b as '\"''' from \"it's\\\\\n\" limit 2, -1" =
      .ok { path := "it's\\\n", columns := [.expr "a" (some ""), .expr "b" (some "\"'")],
            limit := some "-1", offset := some "2" } := by
    decide +kernel
  exact ⟨_, hread, by decide +kernel, ofText_print hread⟩

end TreeQuery.Query
