import Mathlib.Data.List.Induction
import Mathlib.Data.List.Lex
import Mathlib.Data.List.Sigma
import TreeQuery.Tree

/-!
# Places in a tree

A node of a tree is told by its place: the positions at which to go down from the top, so `[]` is
the top itself and `a ++ [i]` the node at position `i` in the node at `a`. `Node.places` lists the
places in the order in which a walk stores the nodes. The order is made of blocks, one for each
directory (`places_eq`): the directory, then what it holds that is no directory. `Node.stops` are
these directories, and a visit is made at each of them (`visits_eq`).

In a tree that is `Tidy` every node has a place in the list and only one (`Tidy.mem_places_iff`,
`Tidy.nodup_places`), and the directories are in it in the order of their places as lists of
numbers, so after those above them (`stops_sorted`).
-/

namespace TreeQuery

namespace Node

/-- The node at a place. -/
def node? : Node → List Nat → Option Node
  | n, [] => some n
  | n, i :: a => n.children[i]?.bind fun c => c.node? a

/-- The names on the way down to a place. -/
def trail : Node → List Nat → List String
  | _, [] => []
  | n, i :: a =>
    match n.children[i]? with
    | some c => c.name :: c.trail a
    | none => []

/-- The positions of the nodes that are no directories. -/
def filePositions (ns : List Node) : List Nat :=
  (ns.zipIdx.filter fun d => !d.1.isDirectory).map Prod.snd

mutual

/-- The places in a tree: first the top, then what it holds that is no directory, then its
directories one after the other, each with all that is in it. -/
def places : Node → List (List Nat)
  | mk _ _ children =>
    [] :: (filePositions children).map (fun i => [i]) ++ placesBelow 0 children

/-- The places in the directories among nodes that have positions from `i` on. -/
def placesBelow : Nat → List Node → List (List Nat)
  | _, [] => []
  | i, n :: ns =>
    (if n.isDirectory then n.places.map (i :: ·) else []) ++ placesBelow (i + 1) ns

end

mutual

/-- The places that are visited, with the nodes there: the top, and all directories that are
reached by directories. -/
def stops : Node → List (List Nat × Node)
  | mk name stat children => ([], mk name stat children) :: stopsBelow 0 children

/-- The places that are visited below nodes that have positions from `i` on. -/
def stopsBelow : Nat → List Node → List (List Nat × Node)
  | _, [] => []
  | i, n :: ns =>
    (if n.isDirectory then n.stops.map fun d => (i :: d.1, d.2) else []) ++ stopsBelow (i + 1) ns

end

/-- The visit that is made at a stop. -/
def visitOf (n : Node) (d : List Nat × Node) : DirectoryVisit :=
  visit ((n.trail d.1).foldl childText RelPath.rootText) d.2

/-- What a visit stores: the places of a directory and of what it holds that is no directory. -/
def block (d : List Nat × Node) : List (List Nat) :=
  d.1 :: (filePositions d.2.children).map fun i => d.1 ++ [i]

variable {n m c p : Node} {a b : List Nat} {i : Nat}

/-! ## Going down -/

theorem node?_nil : n.node? [] = some n := rfl

theorem node?_cons : n.node? (i :: a) = n.children[i]?.bind fun c => c.node? a := rfl

theorem node?_append : n.node? (a ++ b) = (n.node? a).bind fun m => m.node? b := by
  induction a generalizing n with
  | nil => rfl
  | cons i a ih =>
    rw [List.cons_append, node?_cons, node?_cons, Option.bind_assoc]
    exact congrArg _ (funext fun c => ih)

/-- The node at a place is held by the one at the place above. -/
theorem node?_concat_eq_some_iff :
    n.node? (a ++ [i]) = some m ↔ ∃ p, n.node? a = some p ∧ p.children[i]? = some m := by
  rw [node?_append, Option.bind_eq_some_iff]
  simp only [node?_cons, node?_nil, Option.bind_fun_some]

/-- A node is the top, or is held by the one above. -/
theorem node?_cases (hm : n.node? a = some m) : a = [] ∧ n = m ∨
    ∃ b i p, a = b ++ [i] ∧ n.node? b = some p ∧ p.children[i]? = some m := by
  rcases List.eq_nil_or_concat' a with rfl | ⟨b, i, rfl⟩
  · exact .inl ⟨rfl, Option.some.inj hm⟩
  · obtain ⟨p, hp, hchild⟩ := node?_concat_eq_some_iff.mp hm
    exact .inr ⟨b, i, p, rfl, hp, hchild⟩

/-- Nodes are reached from the top by going down. -/
@[elab_as_elim]
theorem induction_down {motive : List Nat → Node → Prop} (top : motive [] n)
    (down : ∀ a i p m, n.node? a = some p → p.children[i]? = some m → motive a p →
      motive (a ++ [i]) m) {a : List Nat} {m : Node} (hm : n.node? a = some m) : motive a m := by
  induction a using List.reverseRecOn generalizing m with
  | nil =>
    obtain rfl := Option.some.inj hm
    exact top
  | append_singleton a i ih =>
    obtain ⟨p, hp, hchild⟩ := node?_concat_eq_some_iff.mp hm
    exact down a i p m hp hchild (ih hp)

theorem trail_cons (hc : n.children[i]? = some c) : n.trail (i :: a) = c.name :: c.trail a := by
  rw [trail, hc]

theorem trail_append (ha : n.node? a = some m) : n.trail (a ++ b) = n.trail a ++ m.trail b := by
  induction a generalizing n with
  | nil =>
    obtain rfl := Option.some.inj ha
    rfl
  | cons i a ih =>
    obtain ⟨c, hc, hm⟩ := Option.bind_eq_some_iff.mp ha
    rw [List.cons_append, trail_cons hc, trail_cons hc, ih hm, List.cons_append]

theorem trail_concat (hp : n.node? a = some p) (hm : p.children[i]? = some m) :
    n.trail (a ++ [i]) = n.trail a ++ [m.name] := by
  rw [trail_append hp, trail_cons hm, trail]

theorem mem_filePositions_iff {ns : List Node} :
    i ∈ filePositions ns ↔ ∃ m, ns[i]? = some m ∧ m.isDirectory = false := by
  simp only [filePositions, List.mem_map, List.mem_filter, Prod.exists, exists_eq_right,
    List.mk_mem_zipIdx_iff_getElem?, Bool.not_eq_true']

theorem nodup_filePositions (ns : List Node) : (filePositions ns).Nodup :=
  (List.nodup_zipIdx_map_snd ns).sublist (List.filter_sublist.map _)

/-! ## The recursion over a tree -/

/-- What holds of a node if it holds of all that it holds, holds of every tree. -/
@[elab_as_elim]
theorem induction_children {motive : Node → Prop}
    (step : ∀ n : Node, (∀ m ∈ n.children, motive m) → motive n) (n : Node) : motive n :=
  @Node.rec motive (fun ns => ∀ m ∈ ns, motive m) (fun _ _ _ ih => step _ ih)
    (fun _ hm => nomatch hm) (fun _ _ hn hns => List.forall_mem_cons.mpr ⟨hn, hns⟩) n

theorem placesBelow_eq (i : Nat) (ns : List Node) : placesBelow i ns =
    (ns.zipIdx i).flatMap fun d => if d.1.isDirectory then d.1.places.map (d.2 :: ·) else [] := by
  induction ns generalizing i with
  | nil => rfl
  | cons n ns ih => rw [placesBelow, ih, List.zipIdx_cons, List.flatMap_cons]

theorem stopsBelow_eq (i : Nat) (ns : List Node) : stopsBelow i ns =
    (ns.zipIdx i).flatMap fun d =>
      if d.1.isDirectory then d.1.stops.map fun e => (d.2 :: e.1, e.2) else [] := by
  induction ns generalizing i with
  | nil => rfl
  | cons n ns ih => rw [stopsBelow, ih, List.zipIdx_cons, List.flatMap_cons]

theorem visitsBelow_eq (path : String) (ns : List Node) : visitsBelow path ns =
    ns.flatMap fun m => if m.isDirectory then visitsAt (childText path m.name) m else [] := by
  induction ns with
  | nil => rfl
  | cons n ns ih => rw [visitsBelow, ih, List.flatMap_cons]

/-- **The order of places is made of blocks.** -/
theorem places_eq (n : Node) : n.places = n.stops.flatMap block := by
  induction n using induction_children with
  | step n ih =>
    obtain ⟨name, stat, children⟩ := n
    rw [places, stops, List.flatMap_cons, placesBelow_eq, stopsBelow_eq, List.flatMap_assoc]
    congr 1
    refine List.flatMap_congr fun d hd => ?_
    have hchild : d.1 ∈ children := List.mem_of_getElem? (List.mem_zipIdx_iff_getElem?.mp hd)
    split
    · rw [ih d.1 hchild, List.map_flatMap, List.flatMap_map]
      refine List.flatMap_congr fun e _ => ?_
      simp only [block, List.map_cons, List.map_map]
      rfl
    · rfl

/-- **A visit is made at each stop.** -/
theorem visitsAt_eq (path : String) (n : Node) :
    visitsAt path n = n.stops.map fun d => visit ((n.trail d.1).foldl childText path) d.2 := by
  induction n using induction_children generalizing path with
  | step n ih =>
    obtain ⟨name, stat, children⟩ := n
    rw [visitsAt, stops, List.map_cons, visitsBelow_eq, stopsBelow_eq, List.map_flatMap]
    congr 1
    conv_lhs => rw [← List.zipIdx_map_fst 0 children, List.flatMap_map]
    refine List.flatMap_congr fun d hd => ?_
    have hchild := List.mem_zipIdx_iff_getElem?.mp hd
    split
    · rw [ih d.1 (List.mem_of_getElem? hchild), List.map_map]
      refine List.map_congr_left fun e _ => ?_
      have htrail : (mk name stat children).trail (d.2 :: e.1) = d.1.name :: d.1.trail e.1 :=
        trail_cons hchild
      simp only [Function.comp_apply, htrail, List.foldl_cons]
    · rfl

theorem visits_eq (n : Node) : n.visits = n.stops.map n.visitOf :=
  visitsAt_eq RelPath.rootText n

/-! ## Stops -/

theorem stops_eq_cons (n : Node) : n.stops = ([], n) :: stopsBelow 0 n.children := by
  cases n
  rw [stops]
  rfl

theorem mem_stopsBelow_iff {ns : List Node} {d : List Nat × Node} :
    d ∈ stopsBelow 0 ns ↔ ∃ i a c, d.1 = i :: a ∧ ns[i]? = some c ∧ c.isDirectory ∧
      (a, d.2) ∈ c.stops := by
  rw [stopsBelow_eq, List.mem_flatMap]
  constructor
  · rintro ⟨⟨c, i⟩, hc, hd⟩
    split at hd
    · rename_i hdirectory
      obtain ⟨e, he, rfl⟩ := List.mem_map.mp hd
      exact ⟨i, e.1, c, rfl, List.mk_mem_zipIdx_iff_getElem?.mp hc, hdirectory, he⟩
    · cases hd
  · rintro ⟨i, a, c, ha, hc, hdirectory, hmem⟩
    refine ⟨(c, i), List.mk_mem_zipIdx_iff_getElem?.mpr hc, ?_⟩
    rw [if_pos hdirectory, List.mem_map]
    exact ⟨(a, d.2), hmem, Prod.ext ha.symm rfl⟩

theorem nil_mem_stops_iff : ([], m) ∈ n.stops ↔ m = n := by
  rw [stops_eq_cons, List.mem_cons, mem_stopsBelow_iff]
  simp

theorem cons_mem_stops_iff : (i :: a, m) ∈ n.stops ↔
    ∃ c, n.children[i]? = some c ∧ c.isDirectory ∧ (a, m) ∈ c.stops := by
  rw [stops_eq_cons, List.mem_cons, mem_stopsBelow_iff]
  simp

/-- **Stops are in the order of their places.** -/
theorem stops_sorted (n : Node) : n.stops.Pairwise fun d e => d.1 < e.1 := by
  induction n using induction_children with
  | step n ih =>
    rw [stops_eq_cons, List.pairwise_cons]
    refine ⟨fun d hd => ?_, ?_⟩
    · obtain ⟨i, a, c, hplace, -⟩ := mem_stopsBelow_iff.mp hd
      rw [hplace]
      exact List.nil_lt_cons i a
    · rw [stopsBelow_eq, List.pairwise_flatMap]
      have hpositions : (n.children.zipIdx).Pairwise fun d e => d.2 < e.2 := by
        refine List.pairwise_map.mp ?_
        rw [List.zipIdx_map_snd]
        exact List.pairwise_lt_range'
      refine ⟨fun d hd => ?_, hpositions.imp fun hlt x hx y hy => ?_⟩
      · have hchild := List.mem_of_getElem? (List.mem_zipIdx_iff_getElem?.mp hd)
        split
        · refine List.pairwise_map.mpr ((ih d.1 hchild).imp fun hlt => ?_)
          exact List.cons_lt_cons_iff.mpr (.inr ⟨rfl, hlt⟩)
        · exact .nil
      · split at hx
        · split at hy
          · obtain ⟨_, -, rfl⟩ := List.mem_map.mp hx
            obtain ⟨_, -, rfl⟩ := List.mem_map.mp hy
            exact List.cons_lt_cons_iff.mpr (.inl hlt)
          · cases hy
        · cases hx

/-! ## Tidy trees -/

/-- **A tree that can be walked.** -/
structure Tidy (n : Node) : Prop where
  /-- Below the top, names can stand in paths. -/
  named : ∀ a m, n.node? a = some m → a ≠ [] → IsOrdinary m.name.toList
  /-- Directories side by side have different names. -/
  distinct : ∀ a m, n.node? a = some m →
    m.children.Pairwise fun c d => c.isDirectory → d.isDirectory → c.name ≠ d.name
  /-- Apart from the top, only directories hold anything. -/
  childless : ∀ a m, n.node? a = some m → a ≠ [] → m.isDirectory = false → m.children = []

theorem Tidy.child (h : n.Tidy) (hc : n.children[i]? = some c) : c.Tidy := by
  have hnode : ∀ {a m}, c.node? a = some m → n.node? (i :: a) = some m := by
    intro a m ha
    rw [node?_cons, hc, Option.bind_some, ha]
  exact ⟨fun a m ha _ => h.named (i :: a) m (hnode ha) (List.cons_ne_nil i a),
    fun a m ha => h.distinct (i :: a) m (hnode ha),
    fun a m ha _ => h.childless (i :: a) m (hnode ha) (List.cons_ne_nil i a)⟩

/-- A tree is tidy if what its top holds is. -/
theorem tidy_iff : n.Tidy ↔
    (n.children.Pairwise fun c d => c.isDirectory → d.isDirectory → c.name ≠ d.name) ∧
      ∀ c ∈ n.children, IsOrdinary c.name.toList ∧ (c.isDirectory = false → c.children = []) ∧
        c.Tidy := by
  constructor
  · intro h
    refine ⟨h.distinct [] n rfl, fun c hc => ?_⟩
    obtain ⟨i, hi⟩ := List.mem_iff_getElem?.mp hc
    have hnode : n.node? [i] = some c := by
      rw [node?_cons, hi]
      rfl
    exact ⟨h.named [i] c hnode (List.cons_ne_nil i []),
      h.childless [i] c hnode (List.cons_ne_nil i []), h.child hi⟩
  · rintro ⟨hdistinct, hchildren⟩
    have hstep : ∀ {i a m}, n.node? (i :: a) = some m →
        ∃ c : Node, IsOrdinary c.name.toList ∧ (c.isDirectory = false → c.children = []) ∧ c.Tidy ∧
          c.node? a = some m := by
      intro i a m hm
      obtain ⟨c, hc, ha⟩ := Option.bind_eq_some_iff.mp hm
      obtain ⟨hname, hempty, htidy⟩ := hchildren c (List.mem_of_getElem? hc)
      exact ⟨c, hname, hempty, htidy, ha⟩
    refine ⟨fun a m hm ha => ?_, fun a m hm => ?_, fun a m hm ha => ?_⟩
    · obtain ⟨i, a, rfl⟩ := List.exists_cons_of_ne_nil ha
      obtain ⟨c, hname, -, htidy, hm⟩ := hstep hm
      cases a with
      | nil => exact Option.some.inj hm ▸ hname
      | cons j a => exact htidy.named _ m hm (List.cons_ne_nil j a)
    · cases a with
      | nil => exact Option.some.inj hm ▸ hdistinct
      | cons i a =>
        obtain ⟨c, -, -, htidy, hm⟩ := hstep hm
        exact htidy.distinct a m hm
    · obtain ⟨i, a, rfl⟩ := List.exists_cons_of_ne_nil ha
      obtain ⟨c, -, hempty, htidy, hm⟩ := hstep hm
      cases a with
      | nil => exact Option.some.inj hm ▸ hempty
      | cons j a => exact htidy.childless _ m hm (List.cons_ne_nil j a)

/-- What holds a node is a directory, or the top. -/
theorem Tidy.holder (h : n.Tidy) (hp : n.node? a = some p) (hm : p.children[i]? = some m) :
    a = [] ∨ p.isDirectory := by
  by_cases ha : a = []
  · exact .inl ha
  · right
    by_contra hnot
    rw [h.childless a p hp ha (Bool.eq_false_iff.mpr hnot)] at hm
    cases hm

/-- **The stops are the top and the directories.** -/
theorem Tidy.mem_stops_iff (h : n.Tidy) :
    (a, m) ∈ n.stops ↔ n.node? a = some m ∧ (a = [] ∨ m.isDirectory) := by
  induction a generalizing n with
  | nil =>
    rw [nil_mem_stops_iff, node?_nil, Option.some.injEq]
    exact ⟨fun hm => ⟨hm.symm, .inl rfl⟩, fun hm => hm.1.symm⟩
  | cons i a ih =>
    rw [cons_mem_stops_iff, node?_cons]
    cases hc : n.children[i]? with
    | none => simp
    | some c =>
      have htidy := h.child hc
      simp only [Option.some.injEq, exists_eq_left', ih htidy, Option.bind_some, reduceCtorEq,
        false_or]
      constructor
      · rintro ⟨hdirectory, hm, rfl | hdir⟩
        · obtain rfl := Option.some.inj hm
          exact ⟨hm, hdirectory⟩
        · exact ⟨hm, hdir⟩
      · rintro ⟨hm, hdir⟩
        refine ⟨?_, hm, .inr hdir⟩
        -- the node on the way holds another one or is the directory itself
        cases a with
        | nil =>
          obtain rfl := Option.some.inj hm
          exact hdir
        | cons j a =>
          obtain ⟨d, hd, -⟩ := Option.bind_eq_some_iff.mp hm
          have hnode : n.node? [i] = some c := by rw [node?_cons, hc]; rfl
          exact (h.holder hnode hd).resolve_left (List.cons_ne_nil i [])

/-- A place with a node is a stop, or that of a file at a stop. -/
theorem Tidy.exists_stop (h : n.Tidy) (hm : n.node? a = some m) :
    (a, m) ∈ n.stops ∨ ∃ b p i, a = b ++ [i] ∧ (b, p) ∈ n.stops ∧ p.children[i]? = some m ∧
      m.isDirectory = false := by
  by_cases hstop : a = [] ∨ m.isDirectory
  · exact .inl (h.mem_stops_iff.mpr ⟨hm, hstop⟩)
  · rw [not_or] at hstop
    obtain ⟨b, i, p, rfl, hp, hchild⟩ := (node?_cases hm).resolve_left fun htop => hstop.1 htop.1
    exact .inr ⟨b, p, i, rfl, h.mem_stops_iff.mpr ⟨hp, h.holder hp hchild⟩, hchild,
      Bool.eq_false_iff.mpr hstop.2⟩

/-- **The places are those that have a node.** -/
theorem Tidy.mem_places_iff (h : n.Tidy) : a ∈ n.places ↔ (n.node? a).isSome := by
  rw [places_eq, List.mem_flatMap, Option.isSome_iff_exists]
  constructor
  · rintro ⟨⟨b, p⟩, hstop, hblock⟩
    obtain ⟨hp, -⟩ := h.mem_stops_iff.mp hstop
    rcases List.mem_cons.mp hblock with rfl | hfile
    · exact ⟨p, hp⟩
    · obtain ⟨i, hi, rfl⟩ := List.mem_map.mp hfile
      obtain ⟨m, hm, -⟩ := mem_filePositions_iff.mp hi
      exact ⟨m, node?_concat_eq_some_iff.mpr ⟨p, hp, hm⟩⟩
  · rintro ⟨m, hm⟩
    rcases h.exists_stop hm with hstop | ⟨b, p, i, rfl, hstop, hchild, hfile⟩
    · exact ⟨_, hstop, List.mem_cons_self⟩
    · refine ⟨_, hstop, List.mem_cons_of_mem _ (List.mem_map.mpr ⟨i, ?_, rfl⟩)⟩
      exact mem_filePositions_iff.mpr ⟨m, hchild, hfile⟩

/-- A file's place is no stop. -/
theorem Tidy.file_not_stop (h : n.Tidy) (hp : (b, p) ∈ n.stops)
    (hi : i ∈ filePositions p.children) :
    (b ++ [i], m) ∉ n.stops := by
  intro hstop
  obtain ⟨hm, hdir⟩ := h.mem_stops_iff.mp hstop
  obtain ⟨q, hq, hchild⟩ := node?_concat_eq_some_iff.mp hm
  obtain rfl := Option.some.inj (hq.symm.trans (h.mem_stops_iff.mp hp).1)
  obtain ⟨f, hf, hfile⟩ := mem_filePositions_iff.mp hi
  obtain rfl := Option.some.inj (hf.symm.trans hchild)
  simp [hfile] at hdir

/-- **No place is listed twice.** -/
theorem Tidy.nodup_places (h : n.Tidy) : n.places.Nodup := by
  rw [places_eq, List.nodup_flatMap]
  constructor
  · rintro ⟨a, m⟩ -
    refine List.nodup_cons.mpr ⟨fun hmem => ?_, ?_⟩
    · obtain ⟨i, -, hi⟩ := List.mem_map.mp hmem
      simpa using congrArg List.length hi
    · refine (nodup_filePositions _).map fun i j hij => ?_
      simpa using hij
  · refine (List.Pairwise.and_mem.mp n.stops_sorted).imp ?_
    rintro ⟨a, m⟩ ⟨b, p⟩ ⟨hm, hp, hlt⟩ x hx hy
    have hne : a ≠ b := hlt.ne
    rcases List.mem_cons.mp hx with rfl | hx
    · rcases List.mem_cons.mp hy with rfl | hy
      · exact hne rfl
      · obtain ⟨i, hi, rfl⟩ := List.mem_map.mp hy
        exact h.file_not_stop hp hi hm
    · obtain ⟨i, hi, rfl⟩ := List.mem_map.mp hx
      rcases List.mem_cons.mp hy with rfl | hy
      · exact h.file_not_stop hm hi hp
      · obtain ⟨j, -, hj⟩ := List.mem_map.mp hy
        exact hne (List.append_inj_left' hj rfl).symm

end Node

end TreeQuery
