import Mathlib.Data.List.Lex
import TreeQuery.Proofs.Catalog.Walks
import TreeQuery.Proofs.Tree.Places

/-!
# The paths of places

The names on the way down to a place are its path, and in a tidy tree a path leads to one stop only
(`Tidy.path_inj`). The visits of a tidy tree are in the order of a walk (`Tidy.isWalk`): a stop is
listed after the stop above it, since the place of the latter comes before its own.
-/

namespace TreeQuery

namespace Node

/-- The names on the way down to a place with a slash between any two. -/
def pathText (n : Node) (a : List Nat) : String :=
  if a = [] then RelPath.rootText else "/".intercalate (n.trail a)

/-- The path of a place. Names that cannot stand in a path are left out. -/
def path (n : Node) (a : List Nat) : RelPath :=
  ⟨(n.trail a).filterMap fun name => Segment.ofChars? name.toList⟩

variable {n m c d p : Node} {a b : List Nat} {i j : Nat}

/-- One step down is one segment more. -/
theorem Tidy.path_concat (h : n.Tidy) (hp : n.node? a = some p) (hm : p.children[i]? = some m) :
    ∃ s : Segment, s.text = m.name ∧ n.path (a ++ [i]) = (n.path a).child s := by
  have hordinary : IsOrdinary m.name.toList :=
    h.named _ m (node?_concat_eq_some_iff.mpr ⟨p, hp, hm⟩) (by simp)
  have hsegment : Segment.ofChars? m.name.toList = some ⟨m.name.toList, hordinary⟩ :=
    dif_pos hordinary
  refine ⟨⟨m.name.toList, hordinary⟩, String.ofList_toList, ?_⟩
  have hlast : [m.name].filterMap (fun name => Segment.ofChars? name.toList) =
      [⟨m.name.toList, hordinary⟩] := List.filterMap_cons_some hsegment
  rw [path, trail_concat hp hm, List.filterMap_append, hlast]
  rfl

theorem Tidy.segments_path (h : n.Tidy) (hm : n.node? a = some m) :
    (n.path a).segments.map Segment.text = n.trail a := by
  refine induction_down rfl (fun a i p m hp hchild ih => ?_) hm
  obtain ⟨s, hs, hpath⟩ := h.path_concat hp hchild
  rw [hpath, RelPath.child, List.map_append, ih, List.map_singleton, hs, trail_concat hp hchild]

/-- The text that a visit is made with. -/
theorem Tidy.foldl_trail (h : n.Tidy) (hm : n.node? a = some m) :
    (n.trail a).foldl childText RelPath.rootText = (n.path a).text := by
  refine induction_down rfl (fun a i p m hp hchild ih => ?_) hm
  obtain ⟨s, hs, hpath⟩ := h.path_concat hp hchild
  rw [trail_concat hp hchild, List.foldl_append, ih, hpath, RelPath.text_child, hs]
  rfl

theorem Tidy.pathText_eq (h : n.Tidy) (hm : n.node? a = some m) :
    n.pathText a = (n.path a).text := by
  unfold pathText
  rcases node?_cases hm with ⟨rfl, -⟩ | ⟨b, i, p, rfl, hp, hchild⟩
  · rfl
  · obtain ⟨s, -, hpath⟩ := h.path_concat hp hchild
    have hne : n.path (b ++ [i]) ≠ .root := hpath ▸ RelPath.child_ne_root
    rw [if_neg (by simp), RelPath.text_eq_intercalate hne, h.segments_path hm]

/-! ## A path leads to one stop -/

/-- A directory is told from those beside it by its name. -/
theorem Tidy.position_eq (h : n.Tidy) (hc : n.children[i]? = some c) (hd : n.children[j]? = some d)
    (hdirs : c.isDirectory ∧ d.isDirectory) (hname : c.name = d.name) : i = j := by
  obtain ⟨hi, rfl⟩ := List.getElem?_eq_some_iff.mp hc
  obtain ⟨hj, rfl⟩ := List.getElem?_eq_some_iff.mp hd
  have hpairs := List.pairwise_iff_getElem.mp (h.distinct [] n rfl)
  rcases Nat.lt_trichotomy i j with hlt | heq | hgt
  · exact absurd hname (hpairs i j hi hj hlt hdirs.1 hdirs.2)
  · exact heq
  · exact absurd hname.symm (hpairs j i hj hi hgt hdirs.2 hdirs.1)

theorem Tidy.trail_inj (h : n.Tidy) (ha : (a, m) ∈ n.stops) (hb : (b, p) ∈ n.stops)
    (htrail : n.trail a = n.trail b) : a = b := by
  induction a generalizing n b with
  | nil =>
    cases b with
    | nil => rfl
    | cons j b =>
      obtain ⟨d, hd, -⟩ := cons_mem_stops_iff.mp hb
      rw [trail_cons hd] at htrail
      cases htrail
  | cons i a ih =>
    obtain ⟨c, hc, hcdir, hca⟩ := cons_mem_stops_iff.mp ha
    rw [trail_cons hc] at htrail
    cases b with
    | nil => cases htrail
    | cons j b =>
      obtain ⟨d, hd, hddir, hdb⟩ := cons_mem_stops_iff.mp hb
      rw [trail_cons hd] at htrail
      obtain ⟨hname, hrest⟩ := List.cons.inj htrail
      obtain rfl := h.position_eq hc hd ⟨hcdir, hddir⟩ hname
      obtain rfl := Option.some.inj (hc.symm.trans hd)
      rw [ih (h.child hc) hca hdb hrest]

/-- **A path leads to one stop.** -/
theorem Tidy.path_inj (h : n.Tidy) (ha : (a, m) ∈ n.stops) (hb : (b, p) ∈ n.stops)
    (hpath : n.path a = n.path b) : a = b := by
  refine h.trail_inj ha hb ?_
  rw [← h.segments_path (h.mem_stops_iff.mp ha).1, hpath,
    h.segments_path (h.mem_stops_iff.mp hb).1]

/-! ## The visits are a walk -/

theorem Tidy.path?_visitOf (h : n.Tidy) {e : List Nat × Node} (he : e ∈ n.stops) :
    (n.visitOf e).path? = some (n.path e.1) := by
  rw [visitOf, h.foldl_trail (h.mem_stops_iff.mp he).1]
  exact RelPath.ofText?_text _

theorem Tidy.map_path?_visits (h : n.Tidy) : n.visits.map DirectoryVisit.path? =
    (n.stops.map fun d => n.path d.1).map some := by
  rw [visits_eq, List.map_map, List.map_map]
  exact List.map_congr_left fun e he => h.path?_visitOf he

/-- The stop above a stop is listed before it. -/
theorem Tidy.exists_above (h : n.Tidy) {before after : List (List Nat × Node)}
    (hsplit : n.stops = before ++ (a, m) :: after) (ha : a ≠ []) :
    ∃ b p i, a = b ++ [i] ∧ n.node? b = some p ∧ p.children[i]? = some m ∧ (b, p) ∈ before := by
  have hstop : (a, m) ∈ n.stops := by
    rw [hsplit]
    exact List.mem_append_right _ List.mem_cons_self
  obtain ⟨b, i, p, rfl, hp, hchild⟩ :=
    (node?_cases (h.mem_stops_iff.mp hstop).1).resolve_left fun htop => ha htop.1
  have habove : (b, p) ∈ n.stops := h.mem_stops_iff.mpr ⟨hp, h.holder hp hchild⟩
  have hlt : b < b ++ [i] := by
    conv_lhs => rw [← List.append_nil b]
    exact List.append_left_lt (List.nil_lt_cons i [])
  have hsorted := n.stops_sorted
  rw [hsplit] at hsorted habove
  refine ⟨b, p, i, rfl, hp, hchild, ?_⟩
  rcases List.mem_append.mp habove with hbefore | hrest
  · exact hbefore
  · rcases List.mem_cons.mp hrest with heq | hafter
    · exact absurd (congrArg Prod.fst heq) hlt.ne
    · have hgt := List.rel_of_pairwise_cons (List.pairwise_append.mp hsorted).2.1 hafter
      exact absurd hgt hlt.asymm

/-- **The visits of a tidy tree are a walk.** -/
theorem Tidy.isWalk (h : n.Tidy) : Indexing.IsWalk n.visits := by
  refine ⟨_, h.map_path?_visits, ?_, ?_, ?_⟩
  · intro p hp
    rw [stops_eq_cons] at hp
    exact (Option.some.inj hp).symm
  · refine List.pairwise_map.mpr ((List.Pairwise.and_mem.mp n.stops_sorted).imp ?_)
    rintro ⟨a, m⟩ ⟨b, p⟩ ⟨ha, hb, hlt⟩ hpath
    exact hlt.ne (h.path_inj ha hb hpath)
  · intro before p after hsplit hbefore
    obtain ⟨ds, rest, hstops, rfl, hrest⟩ := List.map_eq_append_iff.mp hsplit
    obtain ⟨⟨a, m⟩, es, rfl, rfl, -⟩ := List.map_eq_cons_iff.mp hrest
    have ha : a ≠ [] := by
      -- a place is before this one
      rintro rfl
      obtain ⟨d, hd⟩ := List.exists_mem_of_ne_nil ds (fun hnil => hbefore (by rw [hnil]; rfl))
      have hsorted := n.stops_sorted
      rw [hstops] at hsorted
      exact List.not_lt_nil _ ((List.pairwise_append.mp hsorted).2.2 d hd _ List.mem_cons_self)
    obtain ⟨b, p, i, rfl, hp, hchild, hmem⟩ := h.exists_above hstops ha
    obtain ⟨s, -, hpath⟩ := h.path_concat hp hchild
    refine ⟨(n.path b, s), ?_, List.mem_map.mpr ⟨(b, p), hmem, rfl⟩⟩
    rw [Option.mem_def, hpath, RelPath.split?_child]

end Node

end TreeQuery
