import TreeQuery.Proofs.Query.Splicing
import TreeQuery.Session

/-!
# Requests in SQL

The SQL of a request, as a reader sees it. `Request.Body` says what stands in each clause, in terms
of the request alone: the fragments' own pieces, commas between them, and the words around them.
`Request.Confined` says that the SQL is read in one way, and that it has these clauses and no
others, in the order of SQL, so that no fragment reaches out of the place where it was put.

**`prepare_confined`**: every request that a session makes of a statement is confined. The SQL is
put together clause by clause, from the last one to the first (`Tail`).
-/

namespace TreeQuery.Query

open Sql (Piece Pieces Closed Clauses marks parens matching isInnerName)

/-! ## What is promised -/

/-- **A text that may be put into a clause.** -/
structure Spliceable (text : String) : Prop where
  harmless : Sql.Harmless text
  tokens : ∃ ls, tokenize text = .ok ls ∧ ∀ l ∈ ls, ¬ l.token.isOuter

/-- A word of SQL. -/
def sqlWord (w : String) : Piece :=
  .word w.toList

/-- Lists of pieces with commas between them. -/
def withCommas (qss : List (List Piece)) : List Piece :=
  List.intercalate [.mark ','] qss

/-- The pieces of a projection: those of its expression, and AS with one quoted name. -/
def Projection.Reads (p : Projection) (ps : List Piece) : Prop :=
  ∃ es, Closed p.expr.toList es ∧
    ps = es ++ match p.alias? with
      | some name => [sqlWord "AS", .quoted (Text.quoteName name).toList]
      | none => []

namespace Request

/-- The fragments of a request. -/
def fragments (r : Request) : List String :=
  r.columns.map Projection.expr ++ r.predicate.toList ++ r.groupBy ++ r.having.toList ++
    r.orderBy ++ r.limit.toList ++ r.offset.toList

/-- Whether the SQL of a request has a clause. -/
def has (r : Request) : Sql.Clause → Bool
  | .select | .from_ | .where_ => true
  | .group => !r.groupBy.isEmpty
  | .having => r.having.isSome
  | .order => !r.orderBy.isEmpty
  | .limit => r.limit.isSome
  | .offset => r.offset.isSome

/-- The join of the two tables. -/
def tables : List Piece :=
  [sqlWord "files", sqlWord "JOIN", sqlWord "relations", sqlWord "ON",
    sqlWord "files", .mark '.', sqlWord "file_id", .mark '=',
    sqlWord "relations", .mark '.', sqlWord "descendant_id"]

/-- The condition that the rows lie below the root. -/
def rootTest : List Piece :=
  [sqlWord "relations", .mark '.', sqlWord "ancestor_id", .mark '=', .mark '?', .number ['1']]

/-- What stands behind the condition on the root: nothing, or AND and the predicate between two
parentheses that belong together. -/
def Condition (predicate : Option String) (ps : List Piece) : Prop :=
  match predicate with
  | some text => ∃ qs, Closed text.toList qs ∧
      ps = sqlWord "AND" :: .mark '(' :: (qs ++ [.mark ')']) ∧
      ∀ rest, matching 0 (qs ++ .mark ')' :: rest) = some qs
  | none => ps = []

/-- **What stands in a clause** of the SQL of a request. -/
def Body (r : Request) : Sql.Clause → List Piece → Prop
  | .select, ps => ∃ qss, List.Forall₂ Projection.Reads r.columns qss ∧
      ps = (if r.distinct then [sqlWord "DISTINCT"] else []) ++ withCommas qss
  | .from_, ps => ps = tables
  | .where_, ps => ∃ qs, Condition r.predicate qs ∧ ps = rootTest ++ qs
  | .group, ps => ∃ qss, List.Forall₂ (fun t qs => Closed t.toList qs) r.groupBy qss ∧
      ps = sqlWord "BY" :: withCommas qss
  | .having, ps => ∃ text ∈ r.having, Closed text.toList ps
  | .order, ps => ∃ qss, List.Forall₂ (fun t qs => Closed t.toList qs) r.orderBy qss ∧
      ps = sqlWord "BY" :: withCommas qss
  | .limit, ps => ∃ text ∈ r.limit, Closed text.toList ps
  | .offset, ps => ∃ text ∈ r.offset, Closed text.toList ps

/-- **The SQL of a request says what the request says.** -/
structure Confined (r : Request) : Prop where
  fragments : ∀ text ∈ r.fragments, Spliceable text
  aliases : ∀ p ∈ r.columns, ∀ name ∈ p.alias?,
    ∃ l, tokenize (Text.quoteName name) = .ok [l] ∧ l.token = .doubleQuoted
  having : r.having.isSome → r.groupBy ≠ []
  offset : r.offset.isSome → r.limit.isSome
  sql : ∃ ps bodies, (∀ qs, Pieces r.sql.toList qs ↔ qs = ps) ∧ Sql.split ps = ([], bodies) ∧
    bodies.map Prod.fst = Sql.Clause.list.filter r.has ∧
    ∀ b ∈ bodies, r.Body b.1 b.2 ∧ parens 0 (marks b.2) = some 0

end Request

/-! ## Texts of the program's own -/

/-- A quoted name is one piece. -/
theorem closed_quoteName (name : String) :
    Closed (Text.quoteName name).toList [.quoted (Text.quoteName name).toList] := by
  have htext : (Text.quoteName name).toList = '"' :: (Text.double '"' name.toList ++ ['"']) :=
    String.toList_ofList
  rw [htext]
  exact .of_quoted rfl (.of_double '"' name.toList)

theorem tokenize_quoteName (name : String) :
    ∃ l, tokenize (Text.quoteName name) = .ok [l] ∧ l.token = .doubleQuoted :=
  ⟨_, tokenize_of_written (written_quoteName name), rfl⟩

/-- The join of the two tables, as it is written. -/
def Request.tablesText : String :=
  "files JOIN relations ON files.file_id = relations.descendant_id"

/-- The condition on the root, as it is written. -/
def Request.rootText : String :=
  "relations.ancestor_id = ?1"

/-! ### Names of columns -/

theorem written_ident {w : List Char} (h : Sql.isName w) (hfrom : ¬ Form.From w)
    (hk : Keyword.ofWord? w = none) : Token.Written .ident w := by
  cases w with
  | nil => cases h
  | cons c cs =>
    have hall := List.all_eq_true.mp (Bool.and_eq_true_iff.mp h).2
    exact .ident (Sql.isNameStart_of_isName h rfl) (fun d hd => hall d (List.mem_cons_of_mem c hd))
      hfrom hk

theorem written_field (f : Field) :
    Token.Written .ident f.table.name.toList ∧ Token.Written .ident f.name.toList := by
  have htable : ∀ t : Table, Token.Written .ident t.name.toList := by
    intro t
    cases t <;> exact written_ident (by decide) (by decide) (by decide)
  have hname : ∀ f : Field, Token.Written .ident f.name.toList := by
    intro f
    cases f <;> exact written_ident (by decide) (by decide) (by decide)
  exact ⟨htable f.table, hname f⟩

/-- The words of a column's name. -/
def columnWords (f : Field) : Fragment :=
  [⟨.ident, f.table.name.toList, false⟩, ⟨.symbol .dot, ['.'], false⟩,
    ⟨.ident, f.name.toList, false⟩]

theorem columnWords_text (f : Field) : (columnWords f).text = f.qualifiedName := by
  rw [← String.toList_inj]
  have htext : f.qualifiedName.toList = f.table.name.toList ++ '.' :: f.name.toList := by
    simp [Field.qualifiedName, String.toList_append]
  rw [htext]
  simp [columnWords, Fragment.text, Fragment.chars, Fragment.charsAfter, Fragment.spaced]

/-- The name of a column is an expression like any other. -/
theorem exists_columnWords (f : Field) :
    ∃ ls, Layout.OrderTerm (columnWords f) ls ∧ AllWritten ls := by
  obtain ⟨htable, hname⟩ := written_field f
  have hexpr : (columnWords f).IsExpression :=
    ⟨.operandEnd, [.operators 1], .word (.operand .name) (.word .dot (.word .member .done)), rfl,
      by simp [Frame.isLoose]⟩
  refine ⟨[⟨.ident, 0, f.table.name.toList⟩, ⟨.symbol .dot, 0, ['.']⟩,
    ⟨.ident, 0, f.name.toList⟩], .plain ⟨hexpr, rfl⟩, ?_⟩
  have hdot : Token.Written (.symbol .dot) ['.'] := .symbol .dot
  simp [AllWritten, htable, hname, hdot]

theorem closed_qualifiedName (f : Field) :
    Closed f.qualifiedName.toList [sqlWord f.table.name, .mark '.', sqlWord f.name] := by
  obtain ⟨ls, hterm, hls⟩ := exists_columnWords f
  rw [← columnWords_text]
  exact hterm.closed hls

theorem closed_tables : Closed Request.tablesText.toList Request.tables := by
  have htext : Request.tablesText.toList =
      "files".toList ++ ' ' :: ("JOIN".toList ++ ' ' :: ("relations".toList ++ ' ' ::
        ("ON".toList ++ ' ' :: (Field.fileId.qualifiedName.toList ++ ' ' :: (['='] ++
          ' ' :: Field.descendantId.qualifiedName.toList))))) := by
    decide +kernel
  have hword : ∀ w : String, isInnerName w.toList → Closed w.toList [sqlWord w] :=
    fun _ hw => .of_word hw
  have htest := (closed_qualifiedName .fileId).spaced
    ((Closed.of_mark (c := '=') rfl (by decide)).spaced (closed_qualifiedName .descendantId))
  rw [htext]
  exact (hword "files" rfl).spaced ((hword "JOIN" rfl).spaced ((hword "relations" rfl).spaced
    ((hword "ON" rfl).spaced htest)))

theorem closed_rootTest : Closed Request.rootText.toList Request.rootTest := by
  have htext : Request.rootText.toList =
      Field.ancestorId.qualifiedName.toList ++ ' ' :: (['='] ++ ' ' :: ['?', '1']) := by
    decide +kernel
  have hnumber : Form.Number ['1'] :=
    @Form.Number.decimal '1' [] [] [] rfl (by simp) .none .none
  have hone : Pieces ['1'] [.number ['1']] := .of_front (.number hnumber forall_mem_head?_nil)
  have hparameter : Closed ['?', '1'] [.mark '?', .number ['1']] :=
    ⟨hone.mark rfl (by simp [Sql.opensComment]) (by simp), rfl, by simp [Piece.clause?]⟩
  rw [htext]
  exact (closed_qualifiedName .ancestorId).spaced
    ((Closed.of_mark (c := '=') rfl (by decide)).spaced hparameter)

/-! ## Clauses -/

theorem Projection.exists_reads {p : Projection} (h : ∃ ps, Closed p.expr.toList ps) :
    ∃ ps, p.Reads ps ∧ Closed p.sql.toList ps := by
  obtain ⟨es, hes⟩ := h
  refine ⟨_, ⟨es, hes, rfl⟩, ?_⟩
  rw [Projection.sql]
  cases p.alias? with
  | none => simpa using hes
  | some name =>
    have hword : Closed "AS".toList [sqlWord "AS"] := .of_word rfl
    simpa [String.toList_append] using hes.spaced (hword.spaced (closed_quoteName name))

/-- Texts with commas between them, if there are pieces of each. -/
theorem exists_join {α : Type} {R : α → List Piece → Prop} (text : α → String) {as : List α}
    (h : ∀ a ∈ as, ∃ ps, R a ps ∧ Closed (text a).toList ps) :
    ∃ qss, List.Forall₂ R as qss ∧
      Closed (", ".intercalate (as.map text)).toList (withCommas qss) := by
  have hall : ∃ qss, List.Forall₂ R as qss ∧
      List.Forall₂ Closed (as.map fun a => (text a).toList) qss := by
    induction as with
    | nil => exact ⟨[], .nil, .nil⟩
    | cons a as ih =>
      obtain ⟨ha, has⟩ := List.forall_mem_cons.mp h
      obtain ⟨ps, hps, hclosed⟩ := ha
      obtain ⟨qss, hqss, hcloseds⟩ := ih has
      exact ⟨ps :: qss, .cons hps hqss, .cons hclosed hcloseds⟩
  obtain ⟨qss, hqss, hcloseds⟩ := hall
  refine ⟨qss, hqss, ?_⟩
  have hjoin := Closed.join hcloseds
  rw [String.toList_intercalate, List.map_map]
  exact hjoin

namespace Request

variable {r : Request} {c : Sql.Clause} {cs rest : List Char} {body : List Piece}
  {clauses : List Sql.Clause}

/-- **The end of the SQL of a request**: the text of those of the clauses that it has. -/
def Tail (r : Request) (cs : List Char) (clauses : List Sql.Clause) : Prop :=
  ∃ bodies, Clauses cs bodies ∧ bodies.map Prod.fst = clauses.filter r.has ∧
    ∀ b ∈ bodies, r.Body b.1 b.2 ∧ parens 0 (marks b.2) = some 0

theorem Tail.nil : r.Tail [] [] :=
  ⟨[], .nil, rfl, fun _ hb => nomatch hb⟩

theorem Tail.skip (h : r.Tail rest clauses) (hc : r.has c = false) :
    r.Tail rest (c :: clauses) := by
  obtain ⟨bodies, hclauses, hfst, hbodies⟩ := h
  exact ⟨bodies, hclauses, by simpa [hc] using hfst, hbodies⟩

theorem Tail.cons (h : r.Tail rest clauses) (hc : r.has c = true) (hclosed : Closed cs body)
    (hbody : r.Body c body) :
    r.Tail (' ' :: (c.word.toList ++ ' ' :: (cs ++ rest))) (c :: clauses) := by
  obtain ⟨bodies, hclauses, hfst, hbodies⟩ := h
  refine ⟨(c, body) :: bodies, hclauses.cons c hclosed, by simp [hc, hfst], ?_⟩
  exact List.forall_mem_cons.mpr ⟨⟨hbody, hclosed.balanced⟩, hbodies⟩

/-- A clause of one fragment. -/
theorem Tail.optional {piece? : Option String} (h : r.Tail rest clauses) (lead : String)
    (hlead : lead.toList = ' ' :: (c.word.toList ++ [' '])) (hc : r.has c = piece?.isSome)
    (hbody : ∀ piece ∈ piece?, ∃ ps, Closed piece.toList ps ∧ r.Body c ps) :
    r.Tail ((optionalClause lead piece? "").toList ++ rest) (c :: clauses) := by
  cases piece? with
  | none => exact h.skip hc
  | some piece =>
    obtain ⟨ps, hclosed, hps⟩ := hbody piece rfl
    have htail := h.cons hc hclosed hps
    simpa [optionalClause, String.toList_append, hlead] using htail

/-- A clause of several fragments. -/
theorem Tail.listing {pieces : List String} (h : r.Tail rest clauses) (lead : String)
    (hlead : lead.toList = ' ' :: (c.word.toList ++ " BY ".toList))
    (hc : r.has c = !pieces.isEmpty)
    (hbody : ∃ ps, Closed (", ".intercalate pieces).toList ps ∧ r.Body c (sqlWord "BY" :: ps)) :
    r.Tail ((listClause lead pieces).toList ++ rest) (c :: clauses) := by
  cases pieces with
  | nil => exact h.skip hc
  | cons piece pieces =>
    obtain ⟨ps, hclosed, hps⟩ := hbody
    have hword : Closed "BY".toList [sqlWord "BY"] := .of_word rfl
    have htail := h.cons hc (hword.spaced hclosed) hps
    simpa [listClause, String.toList_append, hlead] using htail

/-- What stands behind the condition on the root. -/
theorem exists_condition {predicate : Option String}
    (h : ∀ text ∈ predicate, ∃ ps, Closed text.toList ps) :
    ∃ qs, Condition predicate qs ∧
      Closed (optionalClause " AND (" predicate ")").toList qs ∧
      ∀ d ∈ (optionalClause " AND (" predicate ")").toList.head?, endsFragment d := by
  cases predicate with
  | none => exact ⟨[], rfl, .nil, by simp [optionalClause]⟩
  | some text =>
    obtain ⟨ps, hps⟩ := h text rfl
    have hword : Closed "AND".toList [sqlWord "AND"] := .of_word rfl
    refine ⟨_, ⟨ps, hps, rfl, hps.matching_eq⟩, ?_, ?_⟩
    · simpa [optionalClause, String.toList_append] using (hword.spaced hps.between).blank
    · simp [optionalClause, String.toList_append, endsFragment]

/-- The columns, perhaps after DISTINCT. -/
theorem exists_columns (h : ∀ p ∈ r.columns, ∃ ps, Closed p.expr.toList ps) :
    ∃ ps, r.Body .select ps ∧
      Closed ((if r.distinct then "DISTINCT " else "").toList ++
        (", ".intercalate (r.columns.map Projection.sql)).toList) ps := by
  obtain ⟨qss, hqss, hclosed⟩ :=
    exists_join Projection.sql fun p hp => Projection.exists_reads (h p hp)
  refine ⟨_, ⟨qss, hqss, rfl⟩, ?_⟩
  cases r.distinct with
  | false => simpa using hclosed
  | true =>
    have hword : Closed "DISTINCT".toList [sqlWord "DISTINCT"] := .of_word rfl
    simpa using hword.spaced hclosed

theorem exists_list {texts : List String} (h : ∀ text ∈ texts, ∃ ps, Closed text.toList ps) :
    ∃ qss, List.Forall₂ (fun t qs => Closed t.toList qs) texts qss ∧
      Closed (", ".intercalate texts).toList (withCommas qss) := by
  have hjoin := exists_join (R := fun t qs => Closed t.toList qs) id fun text htext => by
    obtain ⟨ps, hps⟩ := h text htext
    exact ⟨ps, hps, hps⟩
  simpa using hjoin

/-- The SQL of a request behind the condition on the root. -/
def afterRoot (r : Request) : List Char :=
  (optionalClause " AND (" r.predicate ")").toList ++
    ((listClause " GROUP BY " r.groupBy).toList ++
      ((optionalClause " HAVING " r.having "").toList ++
        ((listClause " ORDER BY " r.orderBy).toList ++
          ((optionalClause " LIMIT " r.limit "").toList ++
            (optionalClause " OFFSET " r.offset "").toList))))

theorem tail_conditions (h : ∀ text ∈ r.fragments, ∃ ps, Closed text.toList ps) :
    r.Tail (' ' :: (Sql.Clause.where_.word.toList ++ ' ' :: (rootText.toList ++ r.afterRoot)))
      [.where_, .group, .having, .order, .limit, .offset] := by
  simp only [fragments, List.mem_append, Option.mem_toList, or_imp, forall_and] at h
  obtain ⟨⟨⟨⟨⟨⟨-, hpredicate⟩, hgroupBy⟩, hhaving⟩, horderBy⟩, hlimit⟩, hoffset⟩ := h
  obtain ⟨gss, hgss, hgroup⟩ := exists_list hgroupBy
  obtain ⟨oss, hoss, horder⟩ := exists_list horderBy
  obtain ⟨qs, hqs, hcondition, hhead⟩ := exists_condition hpredicate
  -- a clause of one fragment holds the pieces of that fragment
  have hone : ∀ {piece? : Option String}, (∀ text ∈ piece?, ∃ ps, Closed text.toList ps) →
      ∀ text ∈ piece?, ∃ ps, Closed text.toList ps ∧ ∃ text ∈ piece?, Closed text.toList ps :=
    fun h text ht => (h text ht).imp fun _ hps => ⟨hps, text, ht, hps⟩
  have hoffsetOn := (Tail.nil (r := r)).optional (c := .offset) " OFFSET " rfl rfl (hone hoffset)
  rw [List.append_nil] at hoffsetOn
  have hlimitOn := hoffsetOn.optional (c := .limit) " LIMIT " rfl rfl (hone hlimit)
  have horderOn := hlimitOn.listing (c := .order) " ORDER BY " rfl rfl ⟨_, horder, oss, hoss, rfl⟩
  have hhavingOn := horderOn.optional (c := .having) " HAVING " rfl rfl (hone hhaving)
  have hgroupOn := hhavingOn.listing (c := .group) " GROUP BY " rfl rfl ⟨_, hgroup, gss, hgss, rfl⟩
  have htest := closed_rootTest.append hhead hcondition
  have hwhereOn := hgroupOn.cons (c := .where_) rfl htest ⟨qs, hqs, rfl⟩
  rw [List.append_assoc] at hwhereOn
  exact hwhereOn

theorem source_toList : source.toList = ' ' :: (Sql.Clause.from_.word.toList ++ ' ' ::
    (tablesText.toList ++ ' ' :: (Sql.Clause.where_.word.toList ++ ' ' :: rootText.toList))) := by
  decide +kernel

theorem sql_toList (r : Request) : r.sql.toList = Sql.Clause.select.word.toList ++
    ' ' :: (((if r.distinct then "DISTINCT " else "").toList ++
      (", ".intercalate (r.columns.map Projection.sql)).toList) ++
        (source.toList ++ r.afterRoot)) := by
  -- the parts as variables, since simp would compare the literals with one another
  have hparts : ∀ a b c d e f g h i j : String,
      (a ++ b ++ c ++ d ++ e ++ f ++ g ++ h ++ i ++ j).toList =
        a.toList ++ ((b.toList ++ c.toList) ++ (d.toList ++ (e.toList ++ (f.toList ++
          (g.toList ++ (h.toList ++ (i.toList ++ j.toList))))))) := by
    simp
  have hselect : "SELECT ".toList = Sql.Clause.select.word.toList ++ [' '] := by decide
  have hlead : ∀ rest, "SELECT ".toList ++ rest = Sql.Clause.select.word.toList ++ ' ' :: rest :=
    fun rest => (congrArg (· ++ rest) hselect).trans (List.append_assoc ..)
  exact (hparts ..).trans (hlead _)

/-- **The SQL of a request** whose fragments are closed. -/
theorem exists_sql (h : ∀ text ∈ r.fragments, ∃ ps, Closed text.toList ps) :
    ∃ ps bodies, (∀ qs, Pieces r.sql.toList qs ↔ qs = ps) ∧ Sql.split ps = ([], bodies) ∧
      bodies.map Prod.fst = Sql.Clause.list.filter r.has ∧
      ∀ b ∈ bodies, r.Body b.1 b.2 ∧ parens 0 (marks b.2) = some 0 := by
  have hcolumns : ∀ p ∈ r.columns, ∃ ps, Closed p.expr.toList ps := by
    intro p hp
    refine h p.expr ?_
    simp only [fragments, List.append_assoc]
    exact List.mem_append_left _ (List.mem_map_of_mem hp)
  obtain ⟨cs, hcs, hselect⟩ := exists_columns hcolumns
  have hfrom := (tail_conditions h).cons (c := .from_) rfl closed_tables rfl
  obtain ⟨bodies, hclauses, hfst, hbodies⟩ := hfrom
  obtain ⟨ps, hps, hsplit⟩ := hclauses.pieces_cons .select hselect
  have hsql : Pieces r.sql.toList ps := by
    rw [sql_toList, source_toList]
    simpa only [List.append_assoc, List.cons_append] using hps
  refine ⟨ps, (.select, cs) :: bodies, fun qs => ⟨fun hqs => hqs.unique hsql, ?_⟩, hsplit, ?_, ?_⟩
  · rintro rfl
    exact hsql
  · rw [List.map_cons, hfst]
    rfl
  · exact List.forall_mem_cons.mpr ⟨⟨hcs, hselect.balanced⟩, hbodies⟩

end Request

/-! ## Requests of statements -/

theorem Statement.pieces_map {α β : Type} (g : α → β) (s : Statement α) :
    (s.map g).pieces = s.pieces.map g := by
  have hcolumn : ∀ c : Column α, (c.map g).pieces = c.pieces.map g := by
    intro c
    cases c <;> rfl
  have hoption : ∀ o : Option α, (o.map g).toList = o.toList.map g := by
    intro o
    cases o <;> rfl
  simp [Statement.pieces, Statement.map, List.flatMap_map, List.map_flatMap, hcolumn, hoption]

/-- A fragment of a request comes from its statement, or is the name of a column. -/
theorem mem_fragments_request {s : Statement String} {root : EntryId} {text : String}
    (h : text ∈ (s.request root).fragments) :
    text ∈ s.pieces ∨ ∃ f : Field, text = f.qualifiedName := by
  have hcolumn : ∀ {c : Column String}, text ∈ c.projections.map Projection.expr →
      text ∈ c.pieces ∨ ∃ f : Field, text = f.qualifiedName := by
    intro c hc
    cases c with
    | wildcard =>
      obtain ⟨p, hp, rfl⟩ := List.mem_map.mp hc
      obtain ⟨f, -, rfl⟩ := List.mem_map.mp hp
      exact .inr ⟨f, rfl⟩
    | expr piece alias? => exact .inl hc
  simp only [Request.fragments, Statement.request, Statement.pieces, List.mem_append,
    List.map_flatMap] at h ⊢
  rcases h with (((((h | h) | h) | h) | h) | h) | h
  · obtain ⟨c, hc, hmem⟩ := List.mem_flatMap.mp h
    refine (hcolumn hmem).imp_left fun hpiece => ?_
    have hin := List.mem_flatMap.mpr ⟨c, hc, hpiece⟩
    tauto
  all_goals tauto

/-- HAVING stands behind a GROUP BY, and OFFSET with a LIMIT. -/
theorem Layout.having_offset {s : Statement Fragment} {ls : List Lexeme} (h : Layout s ls) :
    (s.having.isSome → s.groupBy ≠ []) ∧ (s.offset.isSome → s.limit.isSome) := by
  obtain ⟨-, -, -, -, -, hg, -, hl⟩ := h
  constructor
  · cases hg with
    | none | some => exact fun h => nomatch h
    | having _ _ hfs => cases hfs <;> exact fun _ => List.cons_ne_nil _ _
  · cases hl with
    | none | some => exact fun h => nomatch h
    | offset | comma => exact fun _ => rfl

/-- Every fragment of a request is that of an expression or of a term of ORDER BY. -/
theorem exists_orderTerm {statement : String} {s : Statement String} {root : EntryId}
    (hs : Statement.ofText statement = .ok s) {text : String}
    (h : text ∈ (s.request root).fragments) :
    ∃ f ls, Layout.OrderTerm f ls ∧ AllWritten ls ∧ f.text = text := by
  obtain ⟨o, ls, hls, hlayout, rfl⟩ := ofText_eq_ok_iff.mp hs
  rcases mem_fragments_request h with h | ⟨f, rfl⟩
  · rw [Statement.pieces_map] at h
    obtain ⟨f, hf, rfl⟩ := List.mem_map.mp h
    obtain ⟨es, hes, hterm⟩ := hlayout.contains f hf
    exact ⟨f, es, hterm, fun l hl => allWritten_of_tokenize hls l (hes.subset hl), rfl⟩
  · obtain ⟨ls, hterm, hls⟩ := exists_columnWords f
    exact ⟨columnWords f, ls, hterm, hls, columnWords_text f⟩

theorem Statement.request_confined {statement : String} {s : Statement String} (root : EntryId)
    (h : Statement.ofText statement = .ok s) : (s.request root).Confined where
  fragments := by
    intro text htext
    obtain ⟨f, ls, hterm, hls, rfl⟩ := exists_orderTerm h htext
    exact ⟨hterm.harmless hls, hterm.tokenize_text hls⟩
  aliases := fun _ _ name _ => tokenize_quoteName name
  having := by
    obtain ⟨o, ls, -, hlayout, rfl⟩ := ofText_eq_ok_iff.mp h
    simpa [Statement.request, Statement.map] using hlayout.having_offset.1
  offset := by
    obtain ⟨o, ls, -, hlayout, rfl⟩ := ofText_eq_ok_iff.mp h
    simpa [Statement.request, Statement.map] using hlayout.having_offset.2
  sql := by
    refine Request.exists_sql fun text htext => ?_
    obtain ⟨f, ls, hterm, hls, rfl⟩ := exists_orderTerm h htext
    exact ⟨f.pieces, hterm.closed hls⟩

theorem prepare_eq_ok {session : Session} {text : String} {r : Request}
    (h : session.prepare text = .ok r) :
    ∃ s root, Statement.ofText text = .ok s ∧
      session.catalog.registry.resolve? s.path = some root ∧ r = s.request root := by
  unfold Session.prepare at h
  cases hs : Statement.ofText text with
  | error e =>
    rw [hs] at h
    cases h
  | ok s =>
    rw [hs] at h
    simp only [Except.mapError, bind, Except.bind] at h
    split at h
    · rename_i root hroot
      exact ⟨s, root, rfl, hroot, (Except.ok.inj h).symm⟩
    · cases h

/-- **No statement reaches beyond the directory it names.** -/
theorem prepare_confined {session : Session} {text : String} {r : Request}
    (h : session.prepare text = .ok r) : r.Confined := by
  obtain ⟨s, root, hs, -, rfl⟩ := prepare_eq_ok h
  exact s.request_confined root hs

/-- A predicate with a parenthesis and a comment between quotes, and an alias with a quote. -/
theorem prepare_confined_quotes :
    ∃ r, Session.prepare ⟨[], { registry := { directories := [(.root, .ofSlot 0)] } }, []⟩
        "select *, - -a as 'x\"y' from . where b = ');--' or c in () limit 2, 1" = .ok r ∧
      r.predicate = some "b = ');--' or c in ()" ∧ r.Confined := by
  have hprepare : Session.prepare ⟨[], { registry := { directories := [(.root, .ofSlot 0)] } }, []⟩
      "select *, - -a as 'x\"y' from . where b = ');--' or c in () limit 2, 1" =
        .ok { columns := Field.standard.map .ofField ++ [⟨"- -a", some "x\"y"⟩], root := .ofSlot 0,
              predicate := some "b = ');--' or c in ()",
              limit := some "1", offset := some "2" } := by
    decide +kernel
  exact ⟨_, hprepare, rfl, prepare_confined hprepare⟩

end TreeQuery.Query
