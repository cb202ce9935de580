import Mathlib.Data.List.Forall2
import TreeQuery.Proofs.Query.SqlText

/-!
# The clauses of SQL

`split` cuts the pieces of a text before the words that open a clause, and `matching` finds the
parenthesis that closes another.

A text is `Closed` if neither of them can find anything of its surroundings in it: it opens no
clause, and its parentheses belong together. Closed texts can be put side by side
(`Closed.append`, `Closed.join`), between parentheses (`Closed.between`) and into a clause
(`Clauses.cons`).
-/

namespace TreeQuery.Query.Sql

/-! ## Definitions -/

/-- The pieces from behind an opening parenthesis up to the one that closes it; `n` parentheses
have been opened in between. -/
def matching : Nat → List Piece → Option (List Piece)
  | _, [] => none
  | n, p :: ps =>
    if p = .mark '(' then (matching (n + 1) ps).map (p :: ·)
    else if p = .mark ')' then
      match n with
      | 0 => some []
      | n + 1 => (matching n ps).map (p :: ·)
    else (matching n ps).map (p :: ·)

/-- The clauses of a SELECT, in their order. -/
inductive Clause where
  | select | from_ | where_ | group | having | order | limit | offset
  deriving DecidableEq, Repr

namespace Clause

def list : List Clause := [select, from_, where_, group, having, order, limit, offset]

/-- The word that opens a clause. -/
def word : Clause → String
  | select => "SELECT" | from_ => "FROM" | where_ => "WHERE" | group => "GROUP"
  | having => "HAVING" | order => "ORDER" | limit => "LIMIT" | offset => "OFFSET"

end Clause

/-- The clause that a piece opens, in any case of its letters. -/
def Piece.clause? : Piece → Option Clause
  | word text =>
    Clause.list.find? fun c => c.word.toList.map Char.toLower == text.map Char.toLower
  | _ => none

/-- The pieces before the first clause, and the clauses with their pieces. -/
def split : List Piece → List Piece × List (Clause × List Piece)
  | [] => ([], [])
  | p :: ps =>
    match p.clause? with
    | some c => ([], (c, (split ps).1) :: (split ps).2)
    | none => (p :: (split ps).1, (split ps).2)

/-! ## Lists of pieces -/

theorem marks_append (ps qs : List Piece) : marks (ps ++ qs) = marks ps ++ marks qs :=
  List.filterMap_append

theorem parens_bind (n : Nat) (os os' : List Char) :
    parens n (os ++ os') = (parens n os).bind (parens · os') := by
  induction os generalizing n with
  | nil => rfl
  | cons c os ih =>
    rw [List.cons_append, parens.eq_def, parens.eq_def n (c :: os)]
    by_cases hopen : c = '('
    · simp only [if_pos hopen, ih]
    by_cases hclose : c = ')'
    · cases n with
      | zero => simp only [if_neg hopen, if_pos hclose, Option.bind_none]
      | succ n => simp only [if_neg hopen, if_pos hclose, ih]
    · simp only [if_neg hopen, if_neg hclose, ih]

/-- More parentheses may be open before and after. -/
theorem parens_add {n m : Nat} {os : List Char} (h : parens n os = some m) (k : Nat) :
    parens (n + k) os = some (m + k) := by
  induction os generalizing n with
  | nil =>
    obtain rfl := Option.some.inj h
    rfl
  | cons c os ih =>
    rw [parens.eq_def] at h ⊢
    by_cases hopen : c = '('
    · simp only [if_pos hopen] at h ⊢
      rw [Nat.add_right_comm]
      exact ih h
    by_cases hclose : c = ')'
    · cases n with
      | zero =>
        simp only [if_neg hopen, if_pos hclose] at h
        cases h
      | succ n =>
        simp only [if_neg hopen, if_pos hclose] at h ⊢
        rw [Nat.add_right_comm]
        exact ih h
    · simp only [if_neg hopen, if_neg hclose] at h ⊢
      exact ih h

/-- Pieces that leave `m` parentheses open are passed over. -/
theorem matching_append {n m : Nat} {ps : List Piece} (h : parens n (marks ps) = some m)
    (rest : List Piece) : matching n (ps ++ rest) = (matching m rest).map (ps ++ ·) := by
  induction ps generalizing n with
  | nil =>
    obtain rfl := Option.some.inj h
    simp
  | cons p ps ih =>
    have hmap : ∀ {k}, parens k (marks ps) = some m →
        (matching k (ps ++ rest)).map (p :: ·) = (matching m rest).map (p :: ps ++ ·) := by
      intro k hk
      rw [ih hk, Option.map_map]
      rfl
    rw [List.cons_append, matching.eq_def]
    by_cases hopen : p = .mark '('
    · subst hopen
      exact hmap h
    by_cases hclose : p = .mark ')'
    · subst hclose
      cases n with
      | zero => cases h
      | succ n => exact hmap h
    · simp only [if_neg hopen, if_neg hclose]
      refine hmap ?_
      cases p with
      | mark c =>
        rw [← h]
        have hmarks : marks (.mark c :: ps) = c :: marks ps := rfl
        rw [hmarks, parens.eq_def n (c :: marks ps)]
        simp only [if_neg fun hc : c = '(' => hopen (hc ▸ rfl),
          if_neg fun hc : c = ')' => hclose (hc ▸ rfl)]
      | _ => exact h

theorem split_append {ps : List Piece} (h : ∀ p ∈ ps, p.clause? = none) (rest : List Piece) :
    split (ps ++ rest) = (ps ++ (split rest).1, (split rest).2) := by
  induction ps with
  | nil => rfl
  | cons p ps ih =>
    obtain ⟨hp, hps⟩ := List.forall_mem_cons.mp h
    rw [List.cons_append, split, hp, ih hps]
    rfl

/-! ## Names -/

def isName (w : List Char) : Bool :=
  w.head?.any isNameStart && w.all isNameChar

/-- A name that opens no clause. -/
def isInnerName (w : List Char) : Bool :=
  isName w && (Piece.word w).clause?.isNone

theorem isNameStart_of_isName {w : List Char} (h : isName w) {c : Char} (hc : c ∈ w.head?) :
    isNameStart c := by
  rw [isName, Option.mem_def.mp hc] at h
  exact (Bool.and_eq_true_iff.mp h).1

theorem front_of_isName {w rest : List Char} (h : isName w)
    (hrest : ∀ d ∈ rest.head?, ¬ isNameChar d) : Front w rest (some (.word w)) := by
  cases w with
  | nil => cases h
  | cons c cs =>
    have hall := List.all_eq_true.mp (Bool.and_eq_true_iff.mp h).2
    exact .word (isNameStart_of_isName h rfl) (fun d hd => hall d (List.mem_cons_of_mem c hd)) hrest

/-! ## Closed texts -/

/-- **A text with the pieces `ps` that is closed in itself.** -/
structure Closed (cs : List Char) (ps : List Piece) : Prop where
  pieces : Pieces cs ps
  balanced : parens 0 (marks ps) = some 0
  inner : ∀ p ∈ ps, p.clause? = none

namespace Closed

variable {cs ds rest : List Char} {ps qs : List Piece}

/-- Behind an opening parenthesis, the one after a closed text closes it. -/
theorem matching_eq (h : Closed cs ps) (rest : List Piece) :
    matching 0 (ps ++ .mark ')' :: rest) = some ps := by
  rw [matching_append h.balanced]
  simp [matching]

theorem append (h : Closed cs ps) (hds : ∀ d ∈ ds.head?, endsFragment d) (h' : Closed ds qs) :
    Closed (cs ++ ds) (ps ++ qs) where
  pieces := h.pieces.append hds h'.pieces
  balanced := by rw [marks_append, parens_bind, h.balanced]; exact h'.balanced
  inner := List.forall_mem_append.mpr ⟨h.inner, h'.inner⟩

theorem nil : Closed [] [] :=
  ⟨.nil, rfl, fun _ hp => nomatch hp⟩

/-- A blank before a closed text. -/
theorem blank (h : Closed cs ps) : Closed (' ' :: cs) ps :=
  ⟨h.pieces.gap rfl, h.balanced, h.inner⟩

/-- Closed texts with a blank between them. -/
theorem spaced (h : Closed cs ps) (h' : Closed ds qs) : Closed (cs ++ ' ' :: ds) (ps ++ qs) :=
  h.append (by simp [endsFragment]) h'.blank

theorem of_word {w : List Char} (h : isInnerName w) : Closed w [.word w] := by
  obtain ⟨hw, hclause⟩ := Bool.and_eq_true_iff.mp h
  have hpieces := Pieces.of_front (front_of_isName hw forall_mem_head?_nil)
  exact ⟨hpieces, rfl, by simpa using hclause⟩

theorem of_quoted {q : Char} (hq : isQuote q) (hcs : Form.Quoted q cs) :
    Closed (q :: cs) [.quoted (q :: cs)] :=
  ⟨.of_front (.quoted hq hcs forall_mem_head?_nil), rfl, by simp [Piece.clause?]⟩

/-- One mark that is no parenthesis. -/
theorem of_mark {c : Char} (hc : isMark c) (hparen : c ≠ '(' ∧ c ≠ ')') : Closed [c] [.mark c] where
  pieces := Pieces.nil.mark hc (by simp) (by simp)
  balanced := by
    change parens 0 [c] = some 0
    simp [parens, hparen]
  inner := by simp [Piece.clause?]

/-- A comma before a closed text. -/
theorem comma (h : Closed cs ps) : Closed (',' :: cs) (.mark ',' :: ps) :=
  ⟨h.pieces.mark rfl (by simp [opensComment]) (by simp), h.balanced,
    List.forall_mem_cons.mpr ⟨rfl, h.inner⟩⟩

/-- A closed text between parentheses. -/
theorem between (h : Closed cs ps) :
    Closed ('(' :: (cs ++ [')'])) (.mark '(' :: (ps ++ [.mark ')'])) where
  pieces := by
    have hclose : Pieces [')'] [.mark ')'] := Pieces.nil.mark rfl (by simp) (by simp)
    exact (h.pieces.append (by simp [endsFragment]) hclose).mark rfl (by simp [opensComment])
      (by simp)
  balanced := by
    have hopen : parens 1 (marks ps) = some 1 := parens_add h.balanced 1
    have hmarks : marks (.mark '(' :: (ps ++ [.mark ')'])) = '(' :: (marks ps ++ [')']) :=
      congrArg ('(' :: ·) (marks_append ps [.mark ')'])
    rw [hmarks]
    change parens 1 (marks ps ++ [')']) = some 0
    rw [parens_bind, hopen]
    rfl
  inner := by
    have hclose : ∀ p ∈ [Piece.mark ')'], p.clause? = none := by simp [Piece.clause?]
    exact List.forall_mem_cons.mpr ⟨rfl, List.forall_mem_append.mpr ⟨h.inner, hclose⟩⟩

/-- Closed texts with commas between them. -/
theorem join {ts : List (List Char)} {qss : List (List Piece)} (h : List.Forall₂ Closed ts qss) :
    Closed (List.intercalate [',', ' '] ts) (List.intercalate [.mark ','] qss) := by
  induction h with
  | nil => exact nil
  | @cons t ps ts qss ht hrest ih =>
    cases hrest with
    | nil => simpa using ht
    | cons =>
      rw [List.intercalate_cons_cons, List.intercalate_cons_cons]
      rw [List.append_assoc, List.append_assoc]
      exact ht.append (by simp [endsFragment]) ih.blank.comma

end Closed

/-! ## Clauses -/

/-- **The text of some clauses**: its pieces are those of the clauses, and it may follow every
closed text. -/
structure Clauses (cs : List Char) (bodies : List (Clause × List Piece)) : Prop where
  pieces : ∃ ps, Pieces cs ps ∧ split ps = ([], bodies)
  head : ∀ d ∈ cs.head?, endsFragment d

theorem Clause.clause?_word (c : Clause) : (Piece.word c.word.toList).clause? = some c := by
  cases c <;> decide

theorem Clause.front_word (c : Clause) {rest : List Char}
    (hrest : ∀ d ∈ rest.head?, endsFragment d) :
    Front c.word.toList rest (some (.word c.word.toList)) := by
  have hname : isName c.word.toList := by cases c <;> decide
  exact front_of_isName hname fun d hd => (endsFragment_ne (hrest d hd)).1

section Cons

variable {cs rest : List Char} {body : List Piece} {bodies : List (Clause × List Piece)}

/-- A clause with its word and a closed text, in front of other clauses. -/
theorem Clauses.pieces_cons (c : Clause) (hbody : Closed cs body) (h : Clauses rest bodies) :
    ∃ ps, Pieces (c.word.toList ++ ' ' :: (cs ++ rest)) ps ∧
      split ps = ([], (c, body) :: bodies) := by
  obtain ⟨⟨ps, hps, hsplit⟩, hrest⟩ := h
  refine ⟨.word c.word.toList :: (body ++ ps), ?_, ?_⟩
  · exact .cons (c.front_word (by simp [endsFragment])) ((hbody.pieces.append hrest hps).gap rfl)
  · rw [split, c.clause?_word]
    simp only [split_append hbody.inner, hsplit, List.append_nil]

theorem Clauses.cons (c : Clause) (hbody : Closed cs body) (h : Clauses rest bodies) :
    Clauses (' ' :: (c.word.toList ++ ' ' :: (cs ++ rest))) ((c, body) :: bodies) where
  pieces := by
    obtain ⟨ps, hps, hsplit⟩ := h.pieces_cons c hbody
    exact ⟨ps, hps.gap rfl, hsplit⟩
  head := by simp [endsFragment]

end Cons

theorem Clauses.nil : Clauses [] [] :=
  ⟨⟨[], .nil, rfl⟩, forall_mem_head?_nil⟩

end TreeQuery.Query.Sql
