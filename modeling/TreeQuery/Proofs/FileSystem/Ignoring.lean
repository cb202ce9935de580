import Mathlib.Data.List.Perm.Basic
import Mathlib.Data.Set.Function
import Mathlib.Tactic.NthRewrite
import TreeQuery.Proofs.FileSystem.Parts
import TreeQuery.Proofs.FileSystem.Walking

/-!
# What ignored paths leave out

A walk looks at one name at a time: it leaves an entry out if an ignored path is that of the entry
or lies above it, and does not look inside. What is said of ignored paths is said of whole paths.
Both agree since what is below a hidden path is hidden (`stays_cons_iff`).

Entries are told apart by the names that lead to them, and nodes by their places. If no two
directories side by side have the same text as a name, no node is dropped, and the nodes of a
directory are the trees of its entries in the order of their texts (`map_snd_shelved`). This gives
an entry its `placeOf` in the tree, and **`FsNode.walkRoot_ignoring`**: the places of what stays are
those of the tree, with the names, records and parents of the walk that ignores nothing.
-/

namespace TreeQuery

open RawPath Node

namespace FsNode

variable {order : NameOrder} {ignored : List RawPath} {path : RawPath} {name : String}
  {x y : RawName} {names names' : List RawName} {node n : FsNode} {m c : Node} {ns : List Node}
  {i : Nat} {a : List Nat} {seen : List String} {entries : List (RawName × FsNode)}
  {e : RawName × FsNode}

/-! ## Entries below a root -/

/-- What names lead to. -/
def below? : FsNode → List RawName → Option FsNode
  | node, [] => some node
  | node, x :: names => (node.entry? x).bind fun n => n.below? names

/-- No two directories of a listing have names that become the same text. -/
def DistinctTexts (entries : List (RawName × FsNode)) : Prop :=
  entries.Pairwise fun d e =>
    d.2.isDirectory → e.2.isDirectory → Text.decodeLossy d.1 ≠ Text.decodeLossy e.1

/-- **A file system without ambiguous names**: a directory lists a name once, and its directories
have different names as text. -/
inductive Unambiguous : FsNode → Prop where
  | intro {node : FsNode} (once : (node.entries.map Prod.fst).Nodup)
      (texts : DistinctTexts node.entries) (below : ∀ e ∈ node.entries, Unambiguous e.2) :
      Unambiguous node

/-- **Whether what names lead to should stay in a walk**: its record can be read, and it is the root
itself or no ignored path hides it. -/
def Stays (ignored : List RawPath) (path : RawPath) (root : FsNode) (names : List RawName) : Prop :=
  (∃ node, root.below? names = some node ∧ node.stat?.isSome) ∧
    (names = [] ∨ ¬ Hides ignored (path.below names))

theorem mem_entries (h : node.entry? x = some n) : (x, n) ∈ node.entries := by
  obtain ⟨front, back, hsplit, -⟩ := List.lookup_eq_some_iff.mp h
  rw [hsplit]
  exact List.mem_append_right _ List.mem_cons_self

/-- What is listed is found. -/
theorem entry?_of_mem (hnodup : (node.entries.map Prod.fst).Nodup) (h : (x, n) ∈ node.entries) :
    node.entry? x = some n := by
  obtain ⟨front, back, hsplit⟩ := List.append_of_mem h
  refine List.lookup_eq_some_iff.mpr ⟨front, back, hsplit, fun e he => ?_⟩
  rw [hsplit, List.map_append, List.nodup_append] at hnodup
  exact bne_iff_ne.mpr
    (hnodup.2.2 e.1 (List.mem_map_of_mem he) x List.mem_cons_self).symm

theorem Unambiguous.once (h : node.Unambiguous) : (node.entries.map Prod.fst).Nodup := by
  obtain ⟨honce, -, -⟩ := h
  exact honce

theorem Unambiguous.entry (h : node.Unambiguous) (hentry : node.entry? x = some n) :
    n.Unambiguous := by
  obtain ⟨-, -, hbelow⟩ := h
  exact hbelow (x, n) (mem_entries hentry)

theorem WellFormed.of_mem_entries (h : node.WellFormed) (he : e ∈ node.entries) :
    IsRawName e.1 ∧ e.2.WellFormed := by
  cases h with
  | file | link | sealed | unreadable => cases he
  | directory _ hnames hwell => exact ⟨hnames e he, hwell e he⟩

theorem WellFormed.entry (h : node.WellFormed) (hentry : node.entry? x = some n) :
    IsRawName x ∧ n.WellFormed :=
  h.of_mem_entries (mem_entries hentry)

theorem below?_cons : node.below? (x :: names) = (node.entry? x).bind fun n => n.below? names := rfl

theorem below?_append :
    node.below? (names ++ names') = (node.below? names).bind fun n => n.below? names' := by
  induction names generalizing node with
  | nil => rfl
  | cons x names ih =>
    rw [List.cons_append, below?_cons, below?_cons, Option.bind_assoc]
    exact congrArg _ (funext fun n => ih)

/-- Names that lead somewhere are names of directories. -/
theorem WellFormed.isRawName_of_below? (h : node.WellFormed) (hn : node.below? names = some n) :
    ∀ x ∈ names, IsRawName x := by
  induction names generalizing node with
  | nil => exact fun x hx => nomatch hx
  | cons x names ih =>
    obtain ⟨next, hentry, hbelow⟩ := Option.bind_eq_some_iff.mp hn
    exact List.forall_mem_cons.mpr ⟨(h.entry hentry).1, ih (h.entry hentry).2 hbelow⟩

/-- What holds something has a record. -/
theorem stat?_isSome_of_holds (h : node.entry? x = some n) : node.stat?.isSome := by
  cases node with
  | directory => rfl
  | file | link | sealed | unreadable => cases h

theorem stat?_isSome_of_below? (hn : node.below? names = some n) (hread : n.stat?.isSome) :
    node.stat?.isSome := by
  cases names with
  | nil =>
    obtain rfl := Option.some.inj hn
    exact hread
  | cons x names =>
    obtain ⟨next, hentry, -⟩ := Option.bind_eq_some_iff.mp hn
    exact stat?_isSome_of_holds hentry

/-- **What stays stays step by step.** A walk that does not look inside what it leaves out leaves
out nothing more than it should, since all of it is hidden. -/
theorem stays_cons_iff (h : node.WellFormed) : node.Stays ignored path (x :: names) ↔
    ∃ n, node.entry? x = some n ∧ n.stat?.isSome ∧ ¬ Hides ignored (path.child x) ∧
      n.Stays ignored (path.child x) names := by
  constructor
  · rintro ⟨⟨last, hlast, hread⟩, hvisible⟩
    obtain ⟨n, hentry, hbelow⟩ := Option.bind_eq_some_iff.mp hlast
    have hshown := hvisible.resolve_left (List.cons_ne_nil x names)
    have hraw := (h.entry hentry).2.isRawName_of_below? hbelow
    exact ⟨n, hentry, stat?_isSome_of_below? hbelow hread, fun hhides => hshown (hhides.below hraw),
      ⟨last, hbelow, hread⟩, .inr hshown⟩
  · rintro ⟨n, hentry, -, hchild, ⟨last, hbelow, hread⟩, hvisible⟩
    refine ⟨⟨last, ?_, hread⟩, .inr ?_⟩
    · rw [below?_cons, hentry, Option.bind_some, hbelow]
    · rcases hvisible with rfl | hshown
      · exact hchild
      · exact hshown

/-! ## Entries in the order of their nodes -/

/-- The entries of a directory that have a tree, each with its tree. -/
def grown (order : NameOrder) (ignored : List RawPath) (path : RawPath)
    (entries : List (RawName × FsNode)) : List ((RawName × FsNode) × Node) :=
  (unignored ignored path entries).filterMap fun e =>
    (entryTree? order ignored path e).map fun c => (e, c)

theorem mem_grown_iff : (e, c) ∈ grown order ignored path entries ↔
    e ∈ entries ∧ ¬ Hides ignored (path.child e.1) ∧ entryTree? order ignored path e = some c := by
  simp only [grown, List.mem_filterMap, Option.map_eq_some_iff,
    Prod.mk.injEq, unignored, List.mem_filter, Bool.not_eq_true', ← any_under_iff,
    Bool.not_eq_true]
  constructor
  · rintro ⟨d, hd, c, htree, rfl, rfl⟩
    exact ⟨hd.1, hd.2, htree⟩
  · rintro ⟨he, hshown, htree⟩
    exact ⟨e, ⟨he, hshown⟩, c, htree, rfl, rfl⟩

theorem map_snd_grown :
    (grown order ignored path entries).map Prod.snd = found order ignored path entries := by
  rw [grown, List.map_filterMap, found]
  refine List.filterMap_congr fun e _ => ?_
  rw [Option.map_map]
  exact Option.map_id_apply

/-- No two of the entries have the same name. -/
theorem nodup_grown (honce : (entries.map Prod.fst).Nodup) :
    ((grown order ignored path entries).map fun d => d.1.1).Nodup := by
  rw [grown, List.Nodup, List.pairwise_map, List.pairwise_filterMap]
  rw [List.Nodup, List.pairwise_map] at honce
  refine (honce.sublist List.filter_sublist).imp fun hne d hd e he => ?_
  obtain ⟨c, -, rfl⟩ := Option.map_eq_some_iff.mp hd
  obtain ⟨c', -, rfl⟩ := Option.map_eq_some_iff.mp he
  exact hne

/-- However the trees are put in order, their entries can be put in order with them. Where two trees
are equal, there is more than one way. -/
theorem exists_perm_grown : ∃ shelves : List ((RawName × FsNode) × Node),
    order.arrange path (found order ignored path entries) = shelves.map Prod.snd ∧
      shelves.Perm (grown order ignored path entries) := by
  have harranged := order.perm path (found order ignored path entries)
  nth_rewrite 2 [← map_snd_grown] at harranged
  have hsplit := congrFun₂ (List.eq_map_comp_perm Prod.snd)
    (order.arrange path (found order ignored path entries)) (grown order ignored path entries)
  exact hsplit.mpr harranged

/-- The entries of a directory that have a tree, each with its tree, in the order of the nodes. -/
noncomputable def shelved (order : NameOrder) (ignored : List RawPath) (path : RawPath)
    (entries : List (RawName × FsNode)) : List ((RawName × FsNode) × Node) :=
  (@exists_perm_grown order ignored path entries).choose

theorem arrange_found : order.arrange path (found order ignored path entries) =
    (shelved order ignored path entries).map Prod.snd :=
  exists_perm_grown.choose_spec.1

theorem shelved_perm :
    (shelved order ignored path entries).Perm (grown order ignored path entries) :=
  exists_perm_grown.choose_spec.2

theorem mem_shelved_iff : (e, c) ∈ shelved order ignored path entries ↔
    e ∈ entries ∧ ¬ Hides ignored (path.child e.1) ∧
      entryTree? order ignored path e = some c := by
  rw [shelved_perm.mem_iff, mem_grown_iff]

theorem exists_mem_shelved (he : e ∈ entries) (hshown : ¬ Hides ignored (path.child e.1))
    (hread : e.2.stat?.isSome) : ∃ c, (e, c) ∈ shelved order ignored path entries := by
  obtain ⟨stat, hstat⟩ := Option.isSome_iff_exists.mp hread
  obtain ⟨children, htree, -⟩ :=
    exists_tree?_eq order ignored (path.child e.1) (Text.decodeLossy e.1) hstat
  exact ⟨_, mem_shelved_iff.mpr ⟨he, hshown, htree⟩⟩

/-- Directories of different names are all kept. -/
theorem dropSameNames_of_pairwise
    (hdistinct : ns.Pairwise fun c d => c.isDirectory → d.isDirectory → c.name ≠ d.name)
    (hseen : ∀ n ∈ ns, n.isDirectory → n.name ∉ seen) : (dropSameNames seen ns).1 = ns := by
  induction ns generalizing seen with
  | nil => rfl
  | cons n ns ih =>
    obtain ⟨hhead, htail⟩ := List.pairwise_cons.mp hdistinct
    obtain ⟨hnew, hrest⟩ := List.forall_mem_cons.mp hseen
    rw [dropSameNames_cons]
    split_ifs with hfile hold
    · rw [ih htail hrest]
    · rw [Bool.not_eq_false] at hfile
      exact absurd hold (hnew hfile)
    · rw [Bool.not_eq_false] at hfile
      rw [ih htail fun d hd hdirectory hmem => ?_]
      rcases List.mem_cons.mp hmem with heq | hmem
      · exact hhead d hd hfile hdirectory heq.symm
      · exact hrest d hd hdirectory hmem

/-- The directories among the nodes have the names of different entries. -/
theorem pairwise_found (hwell : ∀ e ∈ entries, e.2.WellFormed) (htexts : DistinctTexts entries) :
    (found order ignored path entries).Pairwise fun c d =>
      c.isDirectory → d.isDirectory → c.name ≠ d.name := by
  rw [found, List.pairwise_filterMap]
  refine (List.Pairwise.and_mem.mp (htexts.sublist List.filter_sublist)).imp ?_
  rintro d e ⟨hd, he, hne⟩ c hc c' hc' hdirectory hdirectory'
  rw [name_tree hc, name_tree hc']
  rw [(hwell d (List.mem_of_mem_filter hd)).isDirectory_tree hc] at hdirectory
  rw [(hwell e (List.mem_of_mem_filter he)).isDirectory_tree hc'] at hdirectory'
  exact hne hdirectory hdirectory'

/-- **The nodes of a directory** are the trees of its entries. -/
theorem map_snd_shelved (hwell : ∀ e ∈ entries, e.2.WellFormed) (htexts : DistinctTexts entries) :
    (shelved order ignored path entries).map Prod.snd = kept order ignored path entries := by
  have hdistinct : (order.arrange path (found order ignored path entries)).Pairwise
      fun c d => c.isDirectory → d.isDirectory → c.name ≠ d.name :=
    ((order.perm _ _).pairwise_iff fun hne hd hc heq => hne hc hd heq.symm).mpr
      (pairwise_found hwell htexts)
  rw [kept, dropSameNames_of_pairwise hdistinct fun _ _ _ => List.not_mem_nil, arrange_found]

/-- No two of them have the same name. -/
theorem nodup_shelved (honce : (entries.map Prod.fst).Nodup) :
    ((shelved order ignored path entries).map fun d => d.1.1).Nodup :=
  (shelved_perm.map _).nodup_iff.mpr (nodup_grown honce)

/-- The position of the node of a name among the nodes of a directory. -/
noncomputable def position (order : NameOrder) (ignored : List RawPath) (path : RawPath)
    (entries : List (RawName × FsNode)) (x : RawName) : Nat :=
  ((shelved order ignored path entries).map fun d => d.1.1).idxOf x

theorem position_eq (honce : (entries.map Prod.fst).Nodup)
    (h : (shelved order ignored path entries)[i]? = some (e, c)) :
    position order ignored path entries e.1 = i := by
  have hname : ((shelved order ignored path entries).map fun d => d.1.1)[i]? = some e.1 := by
    rw [List.getElem?_map, h, Option.map_some]
  obtain ⟨hi, hget⟩ := List.getElem?_eq_some_iff.mp hname
  rw [position, ← hget]
  exact (nodup_shelved honce).idxOf_getElem _ _

/-! ## One step down -/

theorem kept_nil : kept order ignored path [] = [] := by
  have hempty : order.arrange path [] = [] := (order.perm path []).eq_nil
  rw [kept, found, unignored, List.filter_nil, List.filterMap_nil, hempty]
  rfl

/-- The nodes below the tree of a file-system node are the trees of its entries. -/
theorem Unambiguous.children_eq (h : node.Unambiguous) (hwell : node.WellFormed)
    (htree : node.tree? order ignored path name = some m) :
    m.children = (shelved order ignored path node.entries).map Prod.snd := by
  obtain ⟨-, htexts, -⟩ := h
  rw [map_snd_shelved (fun e he => (hwell.of_mem_entries he).2) htexts]
  cases node with
  | directory stat entries =>
    rw [tree?_directory] at htree
    exact (congrArg children (Option.some.inj htree)).symm
  | file | link | sealed | unreadable =>
    cases htree
    all_goals exact kept_nil.symm

/-- **An entry that stays has a node**, and it is the tree of the entry. -/
theorem Unambiguous.child_of_entry (h : node.Unambiguous) (hwell : node.WellFormed)
    (htree : node.tree? order ignored path name = some m) (hentry : node.entry? x = some n)
    (hshown : ¬ Hides ignored (path.child x)) (hread : n.stat?.isSome) :
    ∃ c, m.children[position order ignored path node.entries x]? = some c ∧
      n.tree? order ignored (path.child x) (Text.decodeLossy x) = some c := by
  obtain ⟨c, hmem⟩ := exists_mem_shelved (mem_entries hentry) hshown hread
  obtain ⟨i, hi⟩ := List.mem_iff_getElem?.mp hmem
  refine ⟨c, ?_, (mem_shelved_iff.mp hmem).2.2⟩
  rw [h.children_eq hwell htree, List.getElem?_map, position_eq h.once hi, hi, Option.map_some]

/-- **A node stands for an entry that stays.** -/
theorem Unambiguous.entry_of_child (h : node.Unambiguous) (hwell : node.WellFormed)
    (htree : node.tree? order ignored path name = some m) (hc : m.children[i]? = some c) :
    ∃ x n, node.entry? x = some n ∧ n.stat?.isSome ∧ ¬ Hides ignored (path.child x) ∧
      position order ignored path node.entries x = i ∧
      n.tree? order ignored (path.child x) (Text.decodeLossy x) = some c := by
  rw [h.children_eq hwell htree, List.getElem?_map, Option.map_eq_some_iff] at hc
  obtain ⟨⟨⟨x, n⟩, c⟩, hi, rfl⟩ := hc
  obtain ⟨hmem, hshown, hc⟩ := mem_shelved_iff.mp (List.mem_of_getElem? hi)
  obtain ⟨stat, -, hstat, -⟩ := exists_stat_of_tree? hc
  exact ⟨x, n, entry?_of_mem h.once hmem, hstat ▸ rfl, hshown, position_eq h.once hi, hc⟩

/-- Entries that stay have different positions. -/
theorem position_inj (hentry : node.entry? x = some n)
    (hshown : ¬ Hides ignored (path.child x)) (hread : n.stat?.isSome)
    (heq : position order ignored path node.entries x =
      position order ignored path node.entries y) : x = y := by
  obtain ⟨c, hmem⟩ := exists_mem_shelved (mem_entries hentry) hshown hread
  have hx : x ∈ (shelved order ignored path node.entries).map fun d => d.1.1 :=
    List.mem_map.mpr ⟨_, hmem, rfl⟩
  exact (List.idxOf_inj hx).mp heq

/-! ## The places of entries -/

/-- The place in a walk of what names lead to. -/
noncomputable def placeOf (order : NameOrder) (ignored : List RawPath) :
    RawPath → FsNode → List RawName → List Nat
  | _, _, [] => []
  | path, node, x :: names =>
    match node.entry? x with
    | some n =>
      position order ignored path node.entries x :: placeOf order ignored (path.child x) n names
    | none => []

theorem placeOf_cons (hentry : node.entry? x = some n) :
    placeOf order ignored path node (x :: names) =
      position order ignored path node.entries x ::
        placeOf order ignored (path.child x) n names := by
  rw [placeOf, hentry]

/-- **What stays has a node** at its place, with its record and its name as text. -/
theorem Unambiguous.node?_placeOf (h : node.Unambiguous) (hwell : node.WellFormed)
    (htree : node.tree? order ignored path name = some m) (hstays : node.Stays ignored path names) :
    ∃ n c, node.below? names = some n ∧
      m.node? (placeOf order ignored path node names) = some c ∧
      n.stat? = some c.stat ∧ c.name = names.getLast?.elim name Text.decodeLossy := by
  induction names generalizing node path name m with
  | nil =>
    obtain ⟨stat, children, hstat, rfl, -⟩ := exists_stat_of_tree? htree
    exact ⟨node, _, rfl, rfl, hstat, rfl⟩
  | cons x names ih =>
    obtain ⟨next, hentry, hread, hshown, hrest⟩ := (stays_cons_iff hwell).mp hstays
    obtain ⟨d, hd, htree'⟩ := h.child_of_entry hwell htree hentry hshown hread
    obtain ⟨n, c, hbelow, hc, hstat, hname⟩ :=
      ih (h.entry hentry) (hwell.entry hentry).2 htree' hrest
    refine ⟨n, c, ?_, ?_, hstat, ?_⟩
    · rw [below?_cons, hentry, Option.bind_some, hbelow]
    · rw [placeOf_cons hentry, node?_cons, hd, Option.bind_some, hc]
    · rw [hname, List.getLast?_cons]
      cases names.getLast? <;> rfl

/-- **Every node is at the place of something that stays.** -/
theorem Unambiguous.exists_placeOf (h : node.Unambiguous) (hwell : node.WellFormed)
    (htree : node.tree? order ignored path name = some m) (hnode : m.node? a = some c) :
    ∃ names, node.Stays ignored path names ∧ placeOf order ignored path node names = a := by
  induction a generalizing node path name m with
  | nil =>
    obtain ⟨stat, children, hstat, -, -⟩ := exists_stat_of_tree? htree
    exact ⟨[], ⟨⟨node, rfl, hstat ▸ rfl⟩, .inl rfl⟩, rfl⟩
  | cons i a ih =>
    obtain ⟨d, hd, hbelow⟩ := Option.bind_eq_some_iff.mp hnode
    obtain ⟨x, n, hentry, hread, hshown, hposition, htree'⟩ := h.entry_of_child hwell htree hd
    obtain ⟨names, hstays, hplace⟩ := ih (h.entry hentry) (hwell.entry hentry).2 htree' hbelow
    refine ⟨x :: names, (stays_cons_iff hwell).mpr ⟨n, hentry, hread, hshown, hstays⟩, ?_⟩
    rw [placeOf_cons hentry, hposition, hplace]

/-- **Different entries have different places.** -/
theorem Unambiguous.placeOf_inj (h : node.Unambiguous) (hwell : node.WellFormed)
    (htree : node.tree? order ignored path name = some m) (hstays : node.Stays ignored path names)
    (hstays' : node.Stays ignored path names')
    (heq : placeOf order ignored path node names = placeOf order ignored path node names') :
    names = names' := by
  induction names generalizing node path name m names' with
  | nil =>
    cases names' with
    | nil => rfl
    | cons y names' =>
      obtain ⟨n, hentry, -⟩ := (stays_cons_iff hwell).mp hstays'
      rw [placeOf_cons hentry] at heq
      cases heq
  | cons x names ih =>
    obtain ⟨n, hentry, hread, hshown, hrest⟩ := (stays_cons_iff hwell).mp hstays
    rw [placeOf_cons hentry] at heq
    cases names' with
    | nil => cases heq
    | cons y names' =>
      obtain ⟨n', hentry', -, -, hrest'⟩ := (stays_cons_iff hwell).mp hstays'
      rw [placeOf_cons hentry'] at heq
      obtain ⟨hposition, hplace⟩ := List.cons.inj heq
      obtain rfl := position_inj hentry hshown hread hposition
      obtain rfl := Option.some.inj (hentry.symm.trans hentry')
      obtain ⟨d, -, htree'⟩ := h.child_of_entry hwell htree hentry hshown hread
      rw [ih (h.entry hentry) (hwell.entry hentry).2 htree' hrest hrest' hplace]

/-- What is in a directory has a place in the node of the directory. -/
theorem placeOf_concat (hbelow : node.below? (names ++ [x]) = some n) :
    ∃ i, placeOf order ignored path node (names ++ [x]) =
      placeOf order ignored path node names ++ [i] := by
  induction names generalizing node path with
  | nil =>
    obtain ⟨next, hentry, -⟩ := Option.bind_eq_some_iff.mp hbelow
    exact ⟨_, placeOf_cons hentry⟩
  | cons y names ih =>
    obtain ⟨next, hentry, hrest⟩ := Option.bind_eq_some_iff.mp hbelow
    obtain ⟨i, hi⟩ : ∃ i, placeOf order ignored (path.child y) next (names ++ [x]) =
        placeOf order ignored (path.child y) next names ++ [i] := ih hrest
    refine ⟨i, ?_⟩
    rw [List.cons_append, placeOf_cons hentry, placeOf_cons hentry, hi, List.cons_append]

/-- What stays is in directories that stay. -/
theorem WellFormed.stays_above (h : node.WellFormed)
    (hstays : node.Stays ignored path (names ++ [x])) : node.Stays ignored path names := by
  obtain ⟨⟨last, hlast, hread⟩, hvisible⟩ := hstays
  have hraw := h.isRawName_of_below? hlast
  rw [below?_append, Option.bind_eq_some_iff] at hlast
  obtain ⟨n, hn, hlast⟩ := hlast
  refine ⟨⟨n, hn, stat?_isSome_of_below? hlast hread⟩, .inr fun hhides => ?_⟩
  refine hvisible.resolve_left (by simp) ?_
  rw [below_append]
  exact hhides.below fun z hz => hraw z (List.mem_append_right _ hz)

/-- **What a walk shows** of what is below a root, by a place in its tree for all that stays. -/
structure Shows (ignored : List RawPath) (path : RawPath) (root : FsNode) (tree : Node)
    (place : List RawName → List Nat) : Prop where
  /-- The nodes of the tree stand for what stays, each for one entry. -/
  nodes : Set.BijOn place {names | root.Stays ignored path names} {a | (tree.node? a).isSome}
  /-- The top stands for the root. -/
  top : place [] = [] ∧ root.Stays ignored path []
  /-- A node is in the node of its directory. -/
  inside : ∀ names x, root.Stays ignored path (names ++ [x]) →
    root.Stays ignored path names ∧ ∃ i, place (names ++ [x]) = place names ++ [i]
  /-- A node has the record of its entry, and its name as text. -/
  copied : ∀ names, root.Stays ignored path names → ∃ node m, root.below? names = some node ∧
    tree.node? (place names) = some m ∧ node.stat? = some m.stat ∧
      m.name = names.getLast?.elim RelPath.rootText Text.decodeLossy

theorem Unambiguous.shows (h : node.Unambiguous) (hwell : node.WellFormed)
    (htree : node.tree? order ignored path RelPath.rootText = some m) :
    Shows ignored path node m (placeOf order ignored path node) := by
  refine ⟨⟨fun names hstays => ?_, fun names hstays names' hstays' heq => ?_, fun a ha => ?_⟩,
    ⟨rfl, ?_⟩, fun names x hstays => ?_, fun names hstays => ?_⟩
  · obtain ⟨n, c, -, hc, -⟩ := h.node?_placeOf hwell htree hstays
    exact Option.isSome_iff_exists.mpr ⟨c, hc⟩
  · exact h.placeOf_inj hwell htree hstays hstays' heq
  · obtain ⟨c, hc⟩ := Option.isSome_iff_exists.mp ha
    exact h.exists_placeOf hwell htree hc
  · obtain ⟨stat, children, hstat, -, -⟩ := exists_stat_of_tree? htree
    exact ⟨⟨node, rfl, hstat ▸ rfl⟩, .inl rfl⟩
  · obtain ⟨⟨last, hlast, -⟩, -⟩ := id hstays
    exact ⟨hwell.stays_above hstays, placeOf_concat hlast⟩
  · exact h.node?_placeOf hwell htree hstays

/-- What a walk ignores, one that ignores nothing does not. -/
theorem Stays.of_nothing_ignored (h : node.Stays ignored path names) :
    node.Stays [] path names := ⟨h.1, .inr not_hides_nil⟩

/-- A root that is hidden is left without anything in it. -/
theorem Unambiguous.children_of_hides (h : node.Unambiguous) (hwell : node.WellFormed)
    (htree : node.tree? order ignored path name = some m) (hhides : Hides ignored path) :
    m.children = [] := by
  by_contra hne
  obtain ⟨c, rest, hchildren⟩ := List.exists_cons_of_ne_nil hne
  have hfirst : m.children[0]? = some c := by rw [hchildren]; rfl
  obtain ⟨x, n, hentry, -, hshown, -⟩ := h.entry_of_child hwell htree hfirst
  have hraw : ∀ z ∈ [x], IsRawName z := List.forall_mem_singleton.mpr (hwell.entry hentry).1
  exact hshown (hhides.below hraw)

/-- **What ignored paths do to a walk**, told by the places that entries have in it and in the walk
that ignores nothing. -/
structure LeavesOut (ignored : List RawPath) (path : RawPath) (root : FsNode) (tree whole : Node)
    (place wholePlace : List RawName → List Nat) : Prop where
  /-- The walk shows what stays. -/
  shown : Shows ignored path root tree place
  /-- The other one shows all that has a record. -/
  complete : Shows [] path root whole wholePlace
  /-- What stays has the same name and record in both. -/
  same : ∀ names, root.Stays ignored path names → ∃ m m', tree.node? (place names) = some m ∧
    whole.node? (wholePlace names) = some m' ∧ m.name = m'.name ∧ m.stat = m'.stat
  /-- It has the same parent in both, which stays. -/
  parent : ∀ names x, root.Stays ignored path (names ++ [x]) → root.Stays ignored path names ∧
    (place (names ++ [x])).dropLast = place names ∧
      (wholePlace (names ++ [x])).dropLast = wholePlace names
  /-- A root that is ignored or below an ignored path is left alone. -/
  alone : Hides ignored path → tree.children = []
  /-- Nothing is left out for the path of something beside it. -/
  beside : ∀ names x y more, (root.below? (names ++ [x])).isSome →
    (root.below? (names ++ y :: more)).isSome → x ≠ y →
      ¬ Hides [path.below (names ++ [x])] (path.below (names ++ y :: more))

/-- **Ignored paths leave out what is at them and below them, and nothing else.** The two walks may
differ in how they put nodes of the same name in order. -/
theorem walkRoot_ignoring (order order' : NameOrder) (ignored : List RawPath) (path : RawPath)
    (root : FsNode) (hwell : root.WellFormed) (hclear : root.Unambiguous)
    (hread : root.stat?.isSome) : ∃ tree tally whole wholeTally place wholePlace,
      root.walkRoot order ignored path = .ok (tree, tally) ∧
      root.walkRoot order' [] path = .ok (whole, wholeTally) ∧
      LeavesOut ignored path root tree whole place wholePlace := by
  obtain ⟨tree, tally, hwalk, htree⟩ := exists_walkRoot_eq order ignored path hread
  obtain ⟨whole, wholeTally, hwhole, htree'⟩ := exists_walkRoot_eq order' [] path hread
  have hshows := hclear.shows hwell htree
  have hshows' := hclear.shows hwell htree'
  refine ⟨tree, tally, whole, wholeTally, _, _, hwalk, hwhole, hshows, hshows',
    fun names hstays => ?_, fun names x hstays => ?_, hclear.children_of_hides hwell htree,
    fun names x y more hx hy hne => ?_⟩
  · obtain ⟨n, m, hn, hm, hstat, hname⟩ := hshows.copied names hstays
    obtain ⟨n', m', hn', hm', hstat', hname'⟩ := hshows'.copied names hstays.of_nothing_ignored
    obtain rfl := Option.some.inj (hn.symm.trans hn')
    exact ⟨m, m', hm, hm', hname.trans hname'.symm, Option.some.inj (hstat.symm.trans hstat')⟩
  · obtain ⟨habove, i, hi⟩ := hshows.inside names x hstays
    obtain ⟨-, j, hj⟩ := hshows'.inside names x hstays.of_nothing_ignored
    rw [hi, hj, List.dropLast_concat, List.dropLast_concat]
    exact ⟨habove, rfl, rfl⟩
  · obtain ⟨n, hn⟩ := Option.isSome_iff_exists.mp hx
    obtain ⟨n', hn'⟩ := Option.isSome_iff_exists.mp hy
    have hraw := hwell.isRawName_of_below? hn x (by simp)
    have hraw' : ∀ z ∈ y :: more, IsRawName z := fun z hz =>
      hwell.isRawName_of_below? hn' z (List.mem_append_right _ hz)
    rw [below_append, below_append]
    exact not_hides_beside (path.below names) hne hraw hraw'

/-- A root with an entry `a` that holds `x`, an entry `ab` that holds `a`, and two files whose names
become the same text. -/
def overlappingRoot : FsNode :=
  .directory (.plain .directory 0) [
    ([0x61], .directory (.plain .directory 1) [([0x78], .file (.plain .regular 2))]),
    ([0x61, 0x62], .directory (.plain .directory 3) [([0x61], .file (.plain .regular 4))]),
    ([0xFE], .file (.plain .regular 5)),
    ([0xFF], .file (.plain .regular 6))]

theorem walkRoot_ignoring_overlapping : overlappingRoot.WellFormed ∧ overlappingRoot.Unambiguous ∧
    overlappingRoot.stat?.isSome ∧ ∃ tree tally whole wholeTally place wholePlace,
      overlappingRoot.walkRoot .stable [[slashByte, 0x72, slashByte, 0x61]] [slashByte, 0x72] =
        .ok (tree, tally) ∧
      overlappingRoot.walkRoot .stable [] [slashByte, 0x72] = .ok (whole, wholeTally) ∧
      LeavesOut [[slashByte, 0x72, slashByte, 0x61]] [slashByte, 0x72] overlappingRoot tree whole
        place wholePlace := by
  have hwell : overlappingRoot.WellFormed := by
    refine .directory (by decide) (by decide) (List.forall_mem_cons.mpr ⟨?_, ?_⟩)
    · exact .directory (by decide) (by decide)
        (List.forall_mem_singleton.mpr (.file (by decide)))
    · refine List.forall_mem_cons.mpr ⟨?_, List.forall_mem_cons.mpr ⟨.file (by decide),
        List.forall_mem_singleton.mpr (.file (by decide))⟩⟩
      exact .directory (by decide) (by decide)
        (List.forall_mem_singleton.mpr (.file (by decide)))
  have hfile : ∀ stat, Unambiguous (.file stat) := fun stat =>
    .intro .nil .nil fun e he => nomatch he
  have htexts : Text.decodeLossy [0x61] ≠ Text.decodeLossy [0x61, 0x62] := by
    simp [Text.decodeLossy, Text.fronts, Text.front]
  have hclear : overlappingRoot.Unambiguous := by
    refine .intro (by decide) ?_ (List.forall_mem_cons.mpr ⟨?_, List.forall_mem_cons.mpr ⟨?_,
      List.forall_mem_cons.mpr ⟨hfile _, List.forall_mem_singleton.mpr (hfile _)⟩⟩⟩)
    · simp [DistinctTexts, overlappingRoot, FsNode.entries, FsNode.isDirectory, htexts]
    · exact .intro (by decide) (List.pairwise_singleton _ _)
        (List.forall_mem_singleton.mpr (hfile _))
    · exact .intro (by decide) (List.pairwise_singleton _ _)
        (List.forall_mem_singleton.mpr (hfile _))
  exact ⟨hwell, hclear, rfl, walkRoot_ignoring .stable .stable _ _ overlappingRoot hwell hclear rfl⟩

end FsNode

end TreeQuery
