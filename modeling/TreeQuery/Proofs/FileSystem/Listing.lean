import Mathlib.Data.String.Basic
import TreeQuery.Proofs.FileSystem.Ignoring
import TreeQuery.Proofs.Text.Utf8
import TreeQuery.Session

/-!
# The order of listings

A file system lists a directory in any order. `Relisted` says that two file systems differ in
nothing else, at any depth. Listings reach a walk only as the list of trees that a directory has
(`found_perm`). If no two entries of a directory have the same text as a name, no node is dropped
and the nodes of a directory are those trees in the strict order of their names (`sorted_kept`),
and a list has only one such order (`kept_eq_of_perm`).

**`FsNode.walkRoot_relisted`**: both walks give the same tree, its nodes in order, and whatever is
indexed from it is the same. Equal names would leave the order of two nodes open, and of two
directories the one that stays.
-/

namespace TreeQuery

open Node

/-- **The nodes of every directory come in the order of the bytes of their names**, and no two of
them have the same name. -/
inductive Node.Increasing : Node → Prop where
  | mk {name : String} {stat : Stat} {children : List Node}
      (sorted : children.Pairwise fun c d => Text.encode c.name < Text.encode d.name)
      (below : ∀ c ∈ children, c.Increasing) : Increasing (.mk name stat children)

namespace FsNode

variable {order order' : NameOrder} {ignored : List RawPath} {path : RawPath} {name : String}
  {node node' : FsNode} {entries entries' : List (RawName × FsNode)} {n : Node}

/-- **The same file system with other listings**: every directory holds the same under the same
names, and lists it in any order. -/
inductive Relisted : FsNode → FsNode → Prop where
  | file {stat : Stat} : Relisted (.file stat) (.file stat)
  | link {stat : Stat} {target : RawPath} : Relisted (.link stat target) (.link stat target)
  | sealed {stat : Stat} {fault : IoFault} : Relisted (.sealed stat fault) (.sealed stat fault)
  | unreadable {fault : IoFault} : Relisted (.unreadable fault) (.unreadable fault)
  | directory {stat : Stat} {entries entries' : List (RawName × FsNode)}
      (held : List (RawName × FsNode × FsNode))
      (listed : entries.Perm (held.map fun e => (e.1, e.2.1)))
      (listed' : entries'.Perm (held.map fun e => (e.1, e.2.2)))
      (below : ∀ e ∈ held, Relisted e.2.1 e.2.2) :
      Relisted (.directory stat entries) (.directory stat entries')

/-- The names of what is listed, as text. -/
def texts (entries : List (RawName × FsNode)) : List String :=
  entries.map fun e => Text.decodeLossy e.1

/-- **No two entries of a directory have names that become the same text.** -/
inductive DistinctNames : FsNode → Prop where
  | intro {node : FsNode} (distinct : (texts node.entries).Nodup)
      (below : ∀ e ∈ node.entries, DistinctNames e.2) : DistinctNames node

theorem DistinctNames.nodup (h : node.DistinctNames) : (texts node.entries).Nodup := by
  obtain ⟨htexts, -⟩ := h
  exact htexts

theorem DistinctNames.inside (h : node.DistinctNames) : ∀ e ∈ node.entries, e.2.DistinctNames := by
  obtain ⟨-, hbelow⟩ := h
  exact hbelow

/-! ## One directory -/

theorem texts_perm (h : entries.Perm entries') : (texts entries).Perm (texts entries') :=
  h.map _

theorem found_perm (h : entries.Perm entries') :
    (found order ignored path entries).Perm (found order ignored path entries') :=
  (h.filter _).filterMap _

/-- Names that become different texts are those of different nodes. -/
theorem nodup_found (h : (texts entries).Nodup) :
    (found order ignored path entries).Pairwise fun c d => c.name ≠ d.name := by
  rw [texts, List.Nodup, List.pairwise_map] at h
  rw [found, List.pairwise_filterMap]
  refine (h.sublist List.filter_sublist).imp fun hne c hc d hd => ?_
  rwa [name_tree hc, name_tree hd]

/-- Putting the nodes in order does not change that. -/
theorem pairwise_arrange_found (h : (texts entries).Nodup) :
    (order.arrange path (found order ignored path entries)).Pairwise
      fun c d => c.name ≠ d.name :=
  ((order.perm _ _).pairwise_iff fun hne heq => hne heq.symm).mpr (nodup_found h)

/-- Where all names differ no node is dropped. -/
theorem kept_eq_arrange (h : (texts entries).Nodup) :
    kept order ignored path entries =
      order.arrange path (found order ignored path entries) := by
  rw [kept]
  exact dropSameNames_of_pairwise ((pairwise_arrange_found h).imp fun hne _ _ => hne)
    fun _ _ _ => List.not_mem_nil

/-- **The nodes of a directory are in the order of their names.** -/
theorem sorted_kept (h : (texts entries).Nodup) :
    (kept order ignored path entries).Pairwise fun c d => c.name < d.name := by
  rw [kept_eq_arrange h]
  exact ((order.sorted _ _).and (pairwise_arrange_found h)).imp fun hcd =>
    lt_of_le_of_ne hcd.1 hcd.2

/-- **The nodes of a directory do not depend on its listing**, nor on how they are put in order. -/
theorem kept_eq_of_perm (h : (texts entries).Nodup) (h' : (texts entries').Nodup)
    (hfound : (found order ignored path entries).Perm (found order' ignored path entries')) :
    kept order ignored path entries = kept order' ignored path entries' := by
  have hperm : (kept order ignored path entries).Perm (kept order' ignored path entries') := by
    rw [kept_eq_arrange h, kept_eq_arrange h']
    exact (order.perm _ _).trans (hfound.trans (order'.perm _ _).symm)
  exact hperm.eq_of_pairwise (fun _ _ _ _ hlt hgt => absurd hlt hgt.asymm) (sorted_kept h)
    (sorted_kept h')

/-! ## Whole file systems -/

/-- What is held, in one of its two forms, with the trees that it has. -/
theorem found_map (held : List (RawName × FsNode × FsNode)) (part : FsNode × FsNode → FsNode) :
    found order ignored path (held.map fun e => (e.1, part e.2)) =
      (held.filter fun e => !ignored.any (path.child e.1).under).filterMap fun e =>
        (part e.2).tree? order ignored (path.child e.1) (Text.decodeLossy e.1) := by
  rw [found, unignored, List.filter_map, List.filterMap_map]
  rfl

theorem texts_map (held : List (RawName × FsNode × FsNode)) (part : FsNode × FsNode → FsNode) :
    texts (held.map fun e => (e.1, part e.2)) = held.map fun e => Text.decodeLossy e.1 := by
  rw [texts, List.map_map]
  rfl

/-- **Listings do not change a tree.** -/
theorem DistinctNames.tree?_eq (h : node.DistinctNames) (hrelisted : node.Relisted node') :
    node.tree? order ignored path name = node'.tree? order' ignored path name := by
  induction hrelisted generalizing path name with
  | file | link | sealed | unreadable => rfl
  | @directory stat entries entries' held listed listed' below ih =>
    have hheld : found order ignored path (held.map fun e => (e.1, e.2.1)) =
        found order' ignored path (held.map fun e => (e.1, e.2.2)) := by
      rw [found_map held Prod.fst, found_map held Prod.snd]
      refine List.filterMap_congr fun e he => ?_
      have hmem := List.mem_of_mem_filter he
      exact ih e hmem (h.inside (e.1, e.2.1) (listed.mem_iff.mpr (List.mem_map_of_mem hmem)))
    have hfound : (found order ignored path entries).Perm (found order' ignored path entries') :=
      (found_perm listed).trans (hheld ▸ (found_perm listed').symm)
    have htexts : (texts entries).Perm (texts entries') := by
      have hleft := texts_map held Prod.fst ▸ texts_perm listed
      have hright := texts_map held Prod.snd ▸ texts_perm listed'
      exact hleft.trans hright.symm
    have hnodup : (texts entries).Nodup := h.nodup
    rw [tree?_directory, tree?_directory,
      kept_eq_of_perm hnodup (htexts.nodup_iff.mp hnodup) hfound]

/-- **The nodes of a tree are in order.** -/
theorem DistinctNames.increasing (h : node.DistinctNames)
    (hn : node.tree? order ignored path name = some n) : n.Increasing := by
  induction h generalizing path name n with
  | @intro node htexts _ ih =>
    cases node with
    | directory stat entries =>
      rw [tree?_directory] at hn
      obtain rfl := Option.some.inj hn
      refine .mk ((sorted_kept htexts).imp Text.encode_lt_encode_iff.mpr) fun c hc => ?_
      obtain ⟨e, he, htree⟩ := mem_found_iff.mp (mem_found_of_mem_kept hc)
      exact ih e (List.mem_of_mem_filter he) htree
    | unreadable => cases hn
    | file | link | sealed =>
      obtain rfl := Option.some.inj hn
      exact .mk .nil fun c hc => nomatch hc

/-- The catalog of a session depends on the tree alone. -/
theorem map_catalog_openNode {tree : Node} {tally : Tally} (options : IndexOptions)
    (h : node.walkRoot order ignored path = .ok (tree, tally)) :
    (Session.openNode order options path ignored node).map Session.catalog =
      (Session.ofVisits path options tree.visits).map Session.catalog := by
  simp only [Session.openNode, h]
  cases Session.ofVisits path options tree.visits <;> rfl

/-- **Walks of the same tree**: the tree is in order, and all that is indexed from it is the same,
the numbers of the entries and the edges between them included. -/
structure WalksAlike (order order' : NameOrder) (ignored : List RawPath) (path : RawPath)
    (root root' : FsNode) (tree : Node) : Prop where
  left : ∃ tally, root.walkRoot order ignored path = .ok (tree, tally)
  right : ∃ tally, root'.walkRoot order' ignored path = .ok (tree, tally)
  increasing : tree.Increasing
  catalogs : ∀ options : IndexOptions,
    (Session.openNode order options path ignored root).map Session.catalog =
      (Session.openNode order' options path ignored root').map Session.catalog

/-- **A walk does not depend on the order of listings**, nor on how nodes of the same name would be
put in order. Only a root without a record is not walked, and this does not depend on it either. -/
theorem walkRoot_relisted (order order' : NameOrder) (ignored : List RawPath) (path : RawPath)
    {root root' : FsNode} (hrelisted : root.Relisted root') (hdistinct : root.DistinctNames) :
    (∃ fault, root = .unreadable fault ∧ root.walkRoot order ignored path = .error fault ∧
      root'.walkRoot order' ignored path = .error fault) ∨
    ∃ tree, WalksAlike order order' ignored path root root' tree := by
  cases hstat : root.stat? with
  | none =>
    cases hrelisted <;> cases hstat
    exact .inl ⟨_, rfl, rfl, rfl⟩
  | some stat =>
    have hread : root.stat?.isSome := by rw [hstat, Option.isSome_some]
    obtain ⟨tree, tally, hwalk, htree⟩ := exists_walkRoot_eq order ignored path hread
    have htree' : root'.tree? order' ignored path RelPath.rootText = some tree :=
      hdistinct.tree?_eq hrelisted ▸ htree
    obtain ⟨stat', -, hstat', -⟩ := exists_stat_of_tree? htree'
    have hread' : root'.stat?.isSome := by rw [hstat', Option.isSome_some]
    obtain ⟨tree', tally', hwalk', htree''⟩ := exists_walkRoot_eq order' ignored path hread'
    obtain rfl := Option.some.inj (htree'.symm.trans htree'')
    refine .inr ⟨tree, ⟨_, hwalk⟩, ⟨_, hwalk'⟩, hdistinct.increasing htree, fun options => ?_⟩
    rw [map_catalog_openNode options hwalk, map_catalog_openNode options hwalk']

/-- A root that holds a file `a`, a directory `b` and a directory that is listed before them under a
name that is no text; `b` holds `x` and `y`. -/
def shuffledRoot (inner : List (RawName × FsNode) → List (RawName × FsNode)) : FsNode :=
  .directory (.plain .directory 0) (inner [
    ([0xFF], .directory (.plain .directory 1) []),
    ([0x62], .directory (.plain .directory 2)
      (inner [([0x79], .file (.plain .regular 3)), ([0x78], .file (.plain .regular 4))])),
    ([0x61], .file (.plain .regular 5))])

theorem walkRoot_relisted_reversed : (shuffledRoot id).Relisted (shuffledRoot List.reverse) ∧
    (shuffledRoot id).DistinctNames ∧
    ((∃ fault, shuffledRoot id = .unreadable fault ∧
      (shuffledRoot id).walkRoot .stable [[slashByte, 0x61]] [slashByte] = .error fault ∧
      (shuffledRoot List.reverse).walkRoot .stable [[slashByte, 0x61]] [slashByte] = .error fault) ∨
    ∃ tree, WalksAlike .stable .stable [[slashByte, 0x61]] [slashByte] (shuffledRoot id)
      (shuffledRoot List.reverse) tree) := by
  have hrelisted : (shuffledRoot id).Relisted (shuffledRoot List.reverse) := by
    refine .directory [([0xFF], .directory (.plain .directory 1) [],
        .directory (.plain .directory 1) []),
      ([0x62], .directory (.plain .directory 2)
          [([0x79], .file (.plain .regular 3)), ([0x78], .file (.plain .regular 4))],
        .directory (.plain .directory 2)
          [([0x78], .file (.plain .regular 4)), ([0x79], .file (.plain .regular 3))]),
      ([0x61], .file (.plain .regular 5), .file (.plain .regular 5))] (.refl _)
      (List.reverse_perm _) (List.forall_mem_cons.mpr ⟨?_, List.forall_mem_cons.mpr ⟨?_,
        List.forall_mem_singleton.mpr .file⟩⟩)
    · exact .directory [] .nil .nil fun e he => nomatch he
    · exact .directory [([0x79], .file (.plain .regular 3), .file (.plain .regular 3)),
        ([0x78], .file (.plain .regular 4), .file (.plain .regular 4))] (.refl _) (.swap _ _ _)
        (List.forall_mem_cons.mpr ⟨.file, List.forall_mem_singleton.mpr .file⟩)
  have hfile : ∀ stat, DistinctNames (.file stat) := fun stat => .intro .nil fun e he => nomatch he
  have hempty : DistinctNames (.directory (.plain .directory 1) []) :=
    .intro .nil fun e he => nomatch he
  have hinner : DistinctNames (.directory (.plain .directory 2)
      [([0x79], .file (.plain .regular 3)), ([0x78], .file (.plain .regular 4))]) :=
    .intro (by simp [FsNode.entries, texts, Text.decodeLossy, Text.fronts, Text.front])
      (List.forall_mem_cons.mpr ⟨hfile _, List.forall_mem_singleton.mpr (hfile _)⟩)
  have hdistinct : (shuffledRoot id).DistinctNames :=
    .intro (by simp [shuffledRoot, FsNode.entries, texts, Text.decodeLossy, Text.fronts,
        Text.front, ← String.toList_inj, Text.replacement])
      (List.forall_mem_cons.mpr ⟨hempty, List.forall_mem_cons.mpr ⟨hinner,
        List.forall_mem_singleton.mpr (hfile _)⟩⟩)
  exact ⟨hrelisted, hdistinct, walkRoot_relisted .stable .stable _ _ hrelisted hdistinct⟩

end FsNode

end TreeQuery
