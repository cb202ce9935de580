import Mathlib.Data.List.Nodup
import Mathlib.Tactic.Choose
import Mathlib.Tactic.SplitIfs
import TreeQuery.FileSystem.Walk
import TreeQuery.Proofs.FileSystem.Names
import TreeQuery.Proofs.Tree.Paths

/-!
# What a walk keeps

A walk meets whatever the file system holds: names that are no text, records and listings that
cannot be read, different names that become the same text. `Keeps` says what stays of it. Of what is
not ignored, everything that is no directory stays if its record can be read, and of the directories
whose names become one text exactly one.

**`FsNode.walkRoot_taken`**: a walk from a directory always gives a tree, the tree keeps all this,
and an empty catalog takes its visits in. The names of its nodes can stand in paths since they come
from names of a directory (`ordinary_decodeLossy`); the directories of one directory have different
names since `dropSameNames` has been over them; so the tree is tidy and its visits are a walk.

An entry for which a listing gives an error and no name is as little kept as one whose record cannot
be read: it counts as `unreadable` under any name.
-/

namespace TreeQuery

variable {order : NameOrder} {ignored : List RawPath} {path : RawPath} {name x : String}
  {n c : Node}
  {ns : List Node} {seen : List String} {node : FsNode} {stat : Stat}
  {entries : List (RawName × FsNode)}

/-! ## The first of each name -/

namespace Node

/-- The names of the directories among some nodes. -/
def dirNames (ns : List Node) : List String := (ns.filter isDirectory).map Node.name

theorem dirNames_cons_file (h : n.isDirectory = false) : dirNames (n :: ns) = dirNames ns := by
  rw [dirNames, List.filter_cons_of_neg (by simp [h]), dirNames]

theorem dirNames_cons_directory (h : n.isDirectory) :
    dirNames (n :: ns) = n.name :: dirNames ns := by
  rw [dirNames, List.filter_cons_of_pos h, List.map_cons, dirNames]

theorem mem_dirNames_iff : x ∈ dirNames ns ↔ ∃ n ∈ ns, n.isDirectory ∧ n.name = x := by
  simp only [dirNames, List.mem_map, List.mem_filter, and_assoc]

theorem pairwise_of_nodup_dirNames (h : (dirNames ns).Nodup) :
    ns.Pairwise fun c d => c.isDirectory → d.isDirectory → c.name ≠ d.name := by
  rw [dirNames, List.Nodup, List.pairwise_map, List.pairwise_filter] at h
  exact h

end Node

open Node

/-- What becomes of the first node. -/
theorem dropSameNames_cons (seen : List String) (n : Node) (ns : List Node) :
    (dropSameNames seen (n :: ns)).1 =
      if n.isDirectory = false then n :: (dropSameNames seen ns).1
      else if n.name ∈ seen then (dropSameNames seen ns).1
      else n :: (dropSameNames (n.name :: seen) ns).1 := by
  rw [dropSameNames]
  cases n.isDirectory with
  | false => rfl
  | true => by_cases hseen : n.name ∈ seen <;> simp only [hseen] <;> rfl

theorem dropSameNames_sublist (seen : List String) (ns : List Node) :
    (dropSameNames seen ns).1.Sublist ns := by
  induction ns generalizing seen with
  | nil => exact .slnil
  | cons n ns ih =>
    rw [dropSameNames_cons]
    split_ifs
    · exact (ih seen).cons_cons n
    · exact (ih seen).cons n
    · exact (ih (n.name :: seen)).cons_cons n

/-- What is no directory stays. -/
theorem filter_dropSameNames (seen : List String) (ns : List Node) :
    (dropSameNames seen ns).1.filter (fun n => !n.isDirectory) =
      ns.filter fun n => !n.isDirectory := by
  induction ns generalizing seen with
  | nil => rfl
  | cons n ns ih =>
    rw [dropSameNames_cons]
    split_ifs with hfile hseen <;> simp [hfile, ih]

/-- The directories that stay have the names that were not seen before. -/
theorem mem_dirNames_dropSameNames :
    x ∈ dirNames (dropSameNames seen ns).1 ↔ x ∈ dirNames ns ∧ x ∉ seen := by
  induction ns generalizing seen with
  | nil => simp [dropSameNames, dirNames]
  | cons n ns ih =>
    rw [dropSameNames_cons]
    split_ifs with hfile hseen
    · rw [dirNames_cons_file hfile, dirNames_cons_file hfile, ih]
    · rw [Bool.not_eq_false] at hfile
      rw [dirNames_cons_directory hfile, ih, List.mem_cons, or_and_right]
      have hname : ¬ (x = n.name ∧ x ∉ seen) := fun h => h.2 (h.1 ▸ hseen)
      rw [or_iff_right hname]
    · rw [Bool.not_eq_false] at hfile
      rw [dirNames_cons_directory hfile, dirNames_cons_directory hfile, List.mem_cons,
        List.mem_cons, ih, List.mem_cons]
      by_cases hx : x = n.name
      · simp [hx, hseen]
      · simp [hx]

/-- No two directories that stay have the same name. -/
theorem nodup_dirNames_dropSameNames (seen : List String) (ns : List Node) :
    (dirNames (dropSameNames seen ns).1).Nodup := by
  induction ns generalizing seen with
  | nil => exact .nil
  | cons n ns ih =>
    rw [dropSameNames_cons]
    split_ifs with hfile hseen
    · rw [dirNames_cons_file hfile]
      exact ih seen
    · exact ih seen
    · rw [Bool.not_eq_false] at hfile
      rw [dirNames_cons_directory hfile, List.nodup_cons]
      exact ⟨fun hmem => (mem_dirNames_dropSameNames.mp hmem).2 List.mem_cons_self, ih _⟩

/-! ## What a walk yields -/

namespace FsNode

/-- The record of what stands somewhere, if it can be read. -/
def stat? : FsNode → Option Stat
  | .file stat | .link stat _ | .directory stat _ | .sealed stat _ => some stat
  | .unreadable _ => none

/-- The tree that a walk makes of what stands at a path. -/
def tree? (order : NameOrder) (ignored : List RawPath) (path : RawPath) (name : String)
    (node : FsNode) : Option Node :=
  (node.walk order ignored path name).nodes.head?

/-- What a directory at a path lists, ignored paths left out. -/
def unignored (ignored : List RawPath) (directory : RawPath) (entries : List (RawName × FsNode)) :
    List (RawName × FsNode) :=
  entries.filter fun e => !ignored.any (directory.child e.1).under

/-- The tree of an entry of a directory. -/
def entryTree? (order : NameOrder) (ignored : List RawPath) (directory : RawPath)
    (e : RawName × FsNode) : Option Node :=
  e.2.tree? order ignored (directory.child e.1) (Text.decodeLossy e.1)

theorem nodes_walk : (node.walk order ignored path name).nodes =
    (node.tree? order ignored path name).toList := by
  cases node <;> rfl

theorem nodes_walkEntries (order : NameOrder) (ignored : List RawPath) (directory : RawPath)
    (entries : List (RawName × FsNode)) : (walkEntries order ignored directory entries).nodes =
      (unignored ignored directory entries).filterMap (entryTree? order ignored directory) := by
  induction entries with
  | nil => rfl
  | cons e entries ih =>
    rw [walkEntries, unignored]
    by_cases hignored : ignored.any (directory.child e.1).under
    · rw [if_pos hignored, List.filter_cons_of_neg (by simpa using hignored), ih, unignored]
    · rw [if_neg hignored, List.filter_cons_of_pos (by simpa using hignored),
        List.filterMap_cons, ← unignored, ← ih, Walked.append, nodes_walk, ← entryTree?]
      cases entryTree? order ignored directory e <;> rfl

theorem nodes_settle (order : NameOrder) (directory : RawPath) (found : Walked) :
    (settle order directory found).nodes =
      (dropSameNames [] (order.arrange directory found.nodes)).1 := by
  rw [settle]
  generalize dropSameNames [] _ = result
  obtain ⟨kept, dropped⟩ := result
  simp only
  -- what is dropped only counts
  induction dropped using List.reverseRecOn with
  | nil => rfl
  | append_singleton dropped name ih => rw [List.foldl_append]; exact ih

/-! ## Well-formed file systems -/

/-- **What a file system can hold.** Records tell directories from everything else, and names are
those of a directory. -/
inductive WellFormed : FsNode → Prop where
  | file {stat : Stat} : stat.isDirectory = false → WellFormed (.file stat)
  | link {stat : Stat} {target : RawPath} :
      stat.isDirectory = false → WellFormed (.link stat target)
  | sealed {stat : Stat} {fault : IoFault} : stat.isDirectory → WellFormed (.sealed stat fault)
  | unreadable {fault : IoFault} : WellFormed (.unreadable fault)
  | directory {stat : Stat} {entries : List (RawName × FsNode)} : stat.isDirectory →
      (∀ e ∈ entries, IsRawName e.1) → (∀ e ∈ entries, WellFormed e.2) →
      WellFormed (.directory stat entries)

/-- The node of what is no directory, if its record can be read. -/
def leaf? (e : RawName × FsNode) : Option Node :=
  if e.2.isDirectory then none else e.2.stat?.map fun stat => .mk (Text.decodeLossy e.1) stat []

/-- **What a walk keeps** of what stands at a path. For every node of a directory that is itself a
directory, `source` tells the entry that it stands for. -/
inductive Keeps (ignored : List RawPath) : RawPath → FsNode → Node → Prop where
  | file {path : RawPath} {name : String} {stat : Stat} :
      Keeps ignored path (.file stat) (.mk name stat [])
  | link {path : RawPath} {name : String} {stat : Stat} {target : RawPath} :
      Keeps ignored path (.link stat target) (.mk name stat [])
  | sealed {path : RawPath} {name : String} {stat : Stat} {fault : IoFault} :
      Keeps ignored path (.sealed stat fault) (.mk name stat [])
  | directory {path : RawPath} {name : String} {stat : Stat} {entries : List (RawName × FsNode)}
      {children : List Node} (source : Node → RawName × FsNode)
      /- everything that is no directory, under its own name -/
      (leaves : (children.filter fun c => !c.isDirectory).Perm
        ((unignored ignored path entries).filterMap leaf?))
      /- one of the directories whose names become the same text -/
      (once : ∀ e ∈ unignored ignored path entries, e.2.isDirectory →
        (dirNames children).count (Text.decodeLossy e.1) = 1)
      (listed : ∀ c ∈ children, c.isDirectory → source c ∈ unignored ignored path entries ∧
        (source c).2.isDirectory ∧ Text.decodeLossy (source c).1 = c.name)
      (below : ∀ c ∈ children, c.isDirectory →
        Keeps ignored (path.child (source c).1) (source c).2 c) :
      Keeps ignored path (.directory stat entries) (.mk name stat children)

theorem WellFormed.isDirectory_eq (h : node.WellFormed) (hstat : node.stat? = some stat) :
    stat.isDirectory = node.isDirectory := by
  cases h <;> cases hstat <;> assumption

/-! ## Nodes of a tree -/

theorem exists_stat_of_isDirectory (h : node.isDirectory) : ∃ stat, node.stat? = some stat := by
  cases node with
  | directory stat | sealed stat => exact ⟨stat, rfl⟩
  | file | link | unreadable => cases h

/-- What has a record has a tree. -/
theorem exists_tree?_eq (order : NameOrder) (ignored : List RawPath) (path : RawPath)
    (name : String) (hstat : node.stat? = some stat) : ∃ children,
      node.tree? order ignored path name = some (.mk name stat children) ∧
        (node.isDirectory = false → children = []) := by
  cases node <;> cases hstat
  case directory entries =>
    exact ⟨_, rfl, fun hfile => nomatch hfile⟩
  all_goals exact ⟨[], rfl, fun _ => rfl⟩

/-- What has a tree has a record. -/
theorem exists_stat_of_tree? (hn : node.tree? order ignored path name = some n) : ∃ stat children,
    node.stat? = some stat ∧ n = .mk name stat children ∧
      (node.isDirectory = false → children = []) := by
  cases hstat : node.stat? with
  | none =>
    cases node <;> cases hstat
    cases hn
  | some stat =>
    obtain ⟨children, htree, hempty⟩ := exists_tree?_eq order ignored path name hstat
    obtain rfl := Option.some.inj (hn.symm.trans htree)
    exact ⟨stat, children, rfl, rfl, hempty⟩

theorem WellFormed.isDirectory_tree (h : node.WellFormed)
    (hn : node.tree? order ignored path name = some n) : n.isDirectory = node.isDirectory := by
  obtain ⟨stat, children, hstat, rfl, -⟩ := exists_stat_of_tree? hn
  exact h.isDirectory_eq hstat

theorem name_tree (hn : node.tree? order ignored path name = some n) : n.name = name := by
  obtain ⟨stat, children, -, rfl, -⟩ := exists_stat_of_tree? hn
  rfl

/-- The trees of what a directory lists, in the order of its listing. -/
def found (order : NameOrder) (ignored : List RawPath) (path : RawPath)
    (entries : List (RawName × FsNode)) : List Node :=
  (unignored ignored path entries).filterMap (entryTree? order ignored path)

/-- Those of them that stay, in the order of their names. -/
def kept (order : NameOrder) (ignored : List RawPath) (path : RawPath)
    (entries : List (RawName × FsNode)) : List Node :=
  (dropSameNames [] (order.arrange path (found order ignored path entries))).1

theorem tree?_directory : (FsNode.directory stat entries).tree? order ignored path name =
    some (.mk name stat (kept order ignored path entries)) := by
  rw [tree?, walk, kept, found, ← nodes_walkEntries, ← nodes_settle]
  rfl

theorem mem_found_iff : c ∈ found order ignored path entries ↔
    ∃ e ∈ unignored ignored path entries, entryTree? order ignored path e = some c :=
  List.mem_filterMap

theorem mem_found_of_mem_kept (hc : c ∈ kept order ignored path entries) :
    c ∈ found order ignored path entries :=
  (order.perm _ _).subset ((dropSameNames_sublist _ _).subset hc)

/-- An entry that is no directory has no other tree than its node. -/
theorem filter_entryTree? {e : RawName × FsNode} (h : e.2.WellFormed) :
    (entryTree? order ignored path e).filter (fun c => !c.isDirectory) = leaf? e := by
  cases htree : entryTree? order ignored path e with
  | none =>
    rw [leaf?]
    split
    · rfl
    · cases hstat : e.2.stat? with
      | none => rfl
      | some stat =>
        obtain ⟨children, hsome, -⟩ := exists_tree?_eq order ignored (path.child e.1) _ hstat
        exact nomatch htree.symm.trans hsome
  | some c =>
    have hdirectory := h.isDirectory_tree htree
    obtain ⟨stat, children, hstat, rfl, hempty⟩ := exists_stat_of_tree? htree
    rw [leaf?, Option.filter_some, hdirectory, hstat]
    cases hkind : e.2.isDirectory with
    | true => rfl
    | false =>
      rw [hempty hkind]
      rfl

theorem leaves_kept (h : ∀ e ∈ entries, e.2.WellFormed) :
    ((kept order ignored path entries).filter fun c => !c.isDirectory).Perm
      ((unignored ignored path entries).filterMap leaf?) := by
  have hfound : (found order ignored path entries).filter (fun c => !c.isDirectory) =
      (unignored ignored path entries).filterMap leaf? := by
    rw [found, List.filter_filterMap]
    exact List.filterMap_congr fun e he => filter_entryTree? (h e (List.mem_of_mem_filter he))
  rw [kept, filter_dropSameNames, ← hfound]
  exact (order.perm _ _).filter _

theorem nodup_dirNames_kept : (dirNames (kept order ignored path entries)).Nodup :=
  nodup_dirNames_dropSameNames _ _

/-- Every name that a directory has as text is kept. -/
theorem mem_dirNames_kept (h : ∀ e ∈ entries, e.2.WellFormed) {e : RawName × FsNode}
    (he : e ∈ unignored ignored path entries) (hdirectory : e.2.isDirectory) :
    Text.decodeLossy e.1 ∈ dirNames (kept order ignored path entries) := by
  have hwell := h e (List.mem_of_mem_filter he)
  obtain ⟨stat, hstat⟩ := exists_stat_of_isDirectory hdirectory
  obtain ⟨children, htree, -⟩ :=
    exists_tree?_eq order ignored (path.child e.1) (Text.decodeLossy e.1) hstat
  rw [kept, mem_dirNames_dropSameNames, and_iff_left List.not_mem_nil, mem_dirNames_iff]
  exact ⟨_, (order.perm _ _).mem_iff.mpr (mem_found_iff.mpr ⟨e, he, htree⟩),
    (hwell.isDirectory_tree htree).trans hdirectory, name_tree htree⟩

/-! ## What a walk does to a tree -/

/-- **A walk keeps what it should.** -/
theorem WellFormed.keeps (h : node.WellFormed) (hn : node.tree? order ignored path name = some n) :
    Keeps ignored path node n := by
  induction h generalizing path name n with
  | file | link | sealed => obtain rfl := Option.some.inj hn; constructor
  | unreadable => cases hn
  | @directory stat entries _ _ hwell ih =>
    rw [tree?_directory] at hn
    obtain rfl := Option.some.inj hn
    have hsource : ∀ c : Node, ∃ e : RawName × FsNode, c ∈ kept order ignored path entries →
        e ∈ unignored ignored path entries ∧ entryTree? order ignored path e = some c := by
      intro c
      by_cases hc : c ∈ kept order ignored path entries
      · obtain ⟨e, he, htree⟩ := mem_found_iff.mp (mem_found_of_mem_kept hc)
        exact ⟨e, fun _ => ⟨he, htree⟩⟩
      · exact ⟨([], .unreadable .notFound), fun hmem => absurd hmem hc⟩
    choose source hsource using hsource
    refine .directory source (leaves_kept hwell) (fun e he hdirectory => ?_)
      (fun c hc hdirectory => ?_) (fun c hc _ => ?_)
    · exact List.count_eq_one_of_mem nodup_dirNames_kept (mem_dirNames_kept hwell he hdirectory)
    · obtain ⟨he, htree⟩ := hsource c hc
      exact ⟨he, ((hwell _ (List.mem_of_mem_filter he)).isDirectory_tree htree).symm.trans
        hdirectory, (name_tree htree).symm⟩
    · obtain ⟨he, htree⟩ := hsource c hc
      exact ih _ (List.mem_of_mem_filter he) htree

/-- **A walk gives a tidy tree.** -/
theorem WellFormed.tidy (h : node.WellFormed) (hn : node.tree? order ignored path name = some n) :
    n.Tidy := by
  induction h generalizing path name n with
  | file | link | sealed =>
    obtain rfl := Option.some.inj hn
    exact tidy_iff.mpr ⟨.nil, fun c hc => nomatch hc⟩
  | unreadable => cases hn
  | @directory stat entries _ hnames hwell ih =>
    rw [tree?_directory] at hn
    obtain rfl := Option.some.inj hn
    refine tidy_iff.mpr ⟨pairwise_of_nodup_dirNames nodup_dirNames_kept, fun c hc => ?_⟩
    obtain ⟨e, he, htree⟩ := mem_found_iff.mp (mem_found_of_mem_kept hc)
    have hentry := List.mem_of_mem_filter he
    refine ⟨?_, fun hfile => ?_, ih e hentry htree⟩
    · rw [name_tree htree]
      exact ordinary_decodeLossy (hnames e hentry)
    · rw [(hwell e hentry).isDirectory_tree htree] at hfile
      obtain ⟨stat, children, -, rfl, hempty⟩ := exists_stat_of_tree? htree
      exact hempty hfile

/-- A walk from what has a record gives its tree. -/
theorem exists_walkRoot_eq (order : NameOrder) (ignored : List RawPath) (path : RawPath)
    (hread : node.stat?.isSome) : ∃ tree tally,
      node.walkRoot order ignored path = .ok (tree, tally) ∧
        node.tree? order ignored path RelPath.rootText = some tree := by
  obtain ⟨stat, hstat⟩ := Option.isSome_iff_exists.mp hread
  obtain ⟨children, htree, -⟩ := exists_tree?_eq order ignored path RelPath.rootText hstat
  refine ⟨.mk RelPath.rootText stat children,
    (node.walk order ignored path RelPath.rootText).tally, ?_, htree⟩
  cases node <;> cases htree <;> rfl

/-- **Whatever a directory holds, a walk from it gives a tree** that has kept what it should. Its
visits are taken in if there are as many numbers as they bring entries. -/
theorem walkRoot_taken (order : NameOrder) (ignored : List RawPath) (path : RawPath)
    (naming : Naming) (root : FsNode) (h : root.WellFormed) (hdirectory : root.isDirectory) :
    ∃ tree tally, root.walkRoot order ignored path = .ok (tree, tally) ∧
      tree.name = RelPath.rootText ∧
      (Indexing.takeIn {} naming tree.visits).1 =
        (if Indexing.entryCount tree.visits ≤ EntryId.capacity then .ok ()
        else .error .exhausted) ∧
      Keeps ignored path root tree := by
  obtain ⟨stat, hstat⟩ := exists_stat_of_isDirectory hdirectory
  have hread : root.stat?.isSome := by rw [hstat, Option.isSome_some]
  obtain ⟨tree, tally, hwalk, htree⟩ := exists_walkRoot_eq order ignored path hread
  refine ⟨tree, tally, hwalk, name_tree htree, ?_, h.keeps htree⟩
  split
  · rename_i hcount
    exact (Indexing.takeIn_eq_ok_iff naming _).mpr ⟨(h.tidy htree).isWalk, hcount⟩
  · rename_i hcount
    exact (h.tidy htree).isWalk.takeIn_eq_exhausted naming (Nat.lt_of_not_le hcount)

/-- A root with much that can go wrong: the names of two directories and of a file become `a` and
a replacement character, a record and a listing cannot be read, and a path is ignored. -/
def crowdedRoot : FsNode :=
  .directory (.plain .directory 0) [
    ([0x61, 0xFF], .directory (.plain .directory 1) [([0x78], .file (.plain .regular 2))]),
    ([0x61, 0xFE], .directory (.plain .directory 3) []),
    ([0x61, 0xFD], .file (.plain .regular 4)),
    ([0x70], .unreadable .denied),
    ([0x71], .sealed (.plain .directory 5) .denied),
    ([0x72], .file (.plain .regular 6))]

theorem walkRoot_taken_crowded : crowdedRoot.WellFormed ∧ crowdedRoot.isDirectory ∧
    ∃ tree tally,
      crowdedRoot.walkRoot .stable [[slashByte, 0x72]] [slashByte] = .ok (tree, tally) ∧
      tree.name = RelPath.rootText ∧
      (Indexing.takeIn {} .relative tree.visits).1 =
        (if Indexing.entryCount tree.visits ≤ EntryId.capacity then .ok ()
        else .error .exhausted) ∧
      Keeps [[slashByte, 0x72]] [slashByte] crowdedRoot tree := by
  have hwell : crowdedRoot.WellFormed := by
    refine .directory (by decide) (by decide) (List.forall_mem_cons.mpr ⟨?_, ?_⟩)
    · exact .directory (by decide) (by decide)
        (List.forall_mem_singleton.mpr (.file (by decide)))
    · refine List.forall_mem_cons.mpr ⟨.directory (by decide) (by decide) (fun _ he => nomatch he),
        List.forall_mem_cons.mpr ⟨.file (by decide), List.forall_mem_cons.mpr ⟨.unreadable,
          List.forall_mem_cons.mpr ⟨.sealed (by decide), List.forall_mem_singleton.mpr
            (.file (by decide))⟩⟩⟩⟩
  exact ⟨hwell, rfl, walkRoot_taken .stable _ _ .relative crowdedRoot hwell rfl⟩

/-! ## A directory with more files than there are numbers -/

/-- A name of 32 bytes, made of the bits of a number. -/
def bitName (i : Nat) : RawName :=
  (List.range 32).map fun k => if i.testBit k then 0x31 else 0x30

theorem isRawName_bitName (i : Nat) : IsRawName (bitName i) := by
  have hlength : (bitName i).length = 32 := by rw [bitName, List.length_map, List.length_range]
  have hne : ∀ {name : RawName}, name.length ≠ 32 → bitName i ≠ name := by
    rintro _ hother rfl
    exact hother hlength
  refine ⟨hne (by decide), hne (by decide), hne (by decide), fun hslash => ?_⟩
  obtain ⟨k, -, hk⟩ := List.mem_map.mp hslash
  split at hk <;> cases hk

/-- Numbers of 32 bits have different names. -/
theorem bitName_inj {i j : Nat} (hi : i < UInt32.size) (hj : j < UInt32.size)
    (h : bitName i = bitName j) : i = j := by
  refine Nat.eq_of_testBit_eq fun k => ?_
  by_cases hk : k < 32
  · have hbyte := congrArg (·[k]?) h
    simp only [bitName, List.getElem?_map, List.getElem?_range hk, Option.map_some,
      Option.some.injEq] at hbyte
    cases hb : i.testBit k <;> cases hb' : j.testBit k <;> simp [hb, hb'] at hbyte ⊢
  · have hle : UInt32.size ≤ 2 ^ k := Nat.pow_le_pow_right Nat.two_pos (Nat.le_of_not_lt hk)
    rw [Nat.testBit_lt_two_pow (hi.trans_le hle), Nat.testBit_lt_two_pow (hj.trans_le hle)]

/-- A root that holds so many files. -/
def filledRoot (n : Nat) : FsNode :=
  .directory (.plain .directory 0)
    ((List.range n).map fun i => (bitName i, .file (.plain .regular 0)))

theorem wellFormed_filledRoot (n : Nat) : (filledRoot n).WellFormed := by
  refine .directory (by decide) (fun e he => ?_) fun e he => ?_
  · obtain ⟨i, -, rfl⟩ := List.mem_map.mp he
    exact isRawName_bitName i
  · obtain ⟨i, -, rfl⟩ := List.mem_map.mp he
    exact .file (by decide)

theorem nodup_filledRoot {n : Nat} (hn : n ≤ UInt32.size) :
    ((filledRoot n).entries.map Prod.fst).Nodup := by
  rw [filledRoot, entries, List.map_map]
  refine List.nodup_range.map_on fun i hi j hj heq => bitName_inj ?_ ?_ heq
  · exact (List.mem_range.mp hi).trans_le hn
  · exact (List.mem_range.mp hj).trans_le hn

/-- The files of this root are all kept. -/
theorem leaves_filledRoot (path : RawPath) (k : Nat) :
    (unignored [] path (filledRoot k).entries).filterMap leaf? =
      (List.range k).map fun i => .mk (Text.decodeLossy (bitName i)) (.plain .regular 0) [] := by
  have hall : unignored [] path (filledRoot k).entries = (filledRoot k).entries :=
    List.filter_eq_self.mpr fun _ _ => rfl
  rw [hall, filledRoot, entries, List.filterMap_map, ← List.filterMap_eq_map]
  rfl

/-- A walk from this root brings the root and every file. -/
theorem lt_entryCount_filledRoot {k : Nat}
    (htree : (filledRoot k).tree? order [] path name = some n) :
    k < Indexing.entryCount n.visits := by
  have hkeeps := (wellFormed_filledRoot k).keeps htree
  obtain - | - | - | ⟨source, leaves, -, -, -⟩ := hkeeps
  rename_i top children
  have hcount : (children.filter fun c => !c.isDirectory).length = k := by
    have hlength := leaves.length_eq
    have hall := leaves_filledRoot path k
    rw [filledRoot, entries] at hall
    rw [hall, List.length_map, List.length_range] at hlength
    exact hlength
  have hvisits : Indexing.entryCount (Node.mk top (.plain .directory 0) children).visits =
      (1 + (children.filter fun c => !c.isDirectory).length) +
        Indexing.entryCount (visitsBelow RelPath.rootText children) := by
    rw [← List.length_map (f := fun c : Node => FileRecord.mk c.name c.stat)]
    rfl
  rw [hvisits, hcount]
  omega

/-- **A walk may bring more entries than there are numbers.** -/
theorem walkRoot_overfull : (filledRoot 4294967294).WellFormed ∧
    (filledRoot 4294967294).isDirectory ∧
    ((filledRoot 4294967294).entries.map Prod.fst).Nodup ∧
    ∃ tree tally, (filledRoot 4294967294).walkRoot .stable [] [slashByte] = .ok (tree, tally) ∧
      (Indexing.takeIn {} .relative tree.visits).1 = .error .exhausted := by
  have hwell := wellFormed_filledRoot 4294967294
  have hread : (filledRoot 4294967294).stat?.isSome := rfl
  obtain ⟨tree, tally, hwalk, htree⟩ := exists_walkRoot_eq .stable [] [slashByte] hread
  have hcount : EntryId.capacity < Indexing.entryCount tree.visits :=
    lt_entryCount_filledRoot htree
  have hnodup := nodup_filledRoot (n := 4294967294) (by decide)
  exact ⟨hwell, rfl, hnodup, tree, tally, hwalk,
    (hwell.tidy htree).isWalk.takeIn_eq_exhausted .relative hcount⟩

end FsNode

end TreeQuery
