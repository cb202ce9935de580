import Mathlib.Data.List.Find
import Mathlib.Tactic.Ring
import TreeQuery.Proofs.Catalog.Lineage

/-!
# How far positions are true

A table keeps the position of an edge in 32 bits, so positions are true as long as there are no
more than 2 ^ 32 edges (`Indexed.positionsTrue_iff`). How many there are depends on how deep the
entries are. It is the sum of their depths, one more for each, and
**`linkAll_positionsTrue_iff`** says it of the forest of any requests.

A bound on the number of entries is none on this sum. In a `chain` it grows with the square of the
length. Of 92682 entries the last has edges beyond the limit; what is read for them are the first
edges of all, and with them a wrong distance (`chain_positions_wrap`).
-/

namespace TreeQuery.Closure

variable {c : Closure} {links : List Link} {p : Edge → Bool} {edges : List Edge} {i n : Nat}

/-! ## True positions -/

/-- The positions of the edges of a kind. -/
def indicesOf (p : Edge → Bool) (edges : List Edge) : List Nat :=
  (edges.zipIdx.filter fun x => p x.1).map Prod.snd

/-- **The positions in the tables are those of the edges.** -/
structure PositionsTrue (c : Closure) : Prop where
  down : ∀ id, (c.byAncestor.row id).map UInt32.toNat =
    indicesOf (fun e => e.ancestor == id) c.edges
  up : ∀ id, (c.byDescendant.row id).map UInt32.toNat =
    indicesOf (fun e => e.descendant == id) c.edges

theorem mem_indicesOf : i ∈ indicesOf p edges ↔ ∃ e, edges[i]? = some e ∧ p e := by
  simp only [indicesOf, List.mem_map, List.mem_filter, Prod.exists, exists_eq_right,
    List.mk_mem_zipIdx_iff_getElem?]

/-- What is kept in 32 bits is true up to the first position that does not fit. -/
theorem map_toNat_positionsOf (h : edges.length ≤ 2 ^ 32) :
    (positionsOf p edges).map UInt32.toNat = indicesOf p edges := by
  rw [positionsOf, List.map_map, indicesOf]
  refine List.map_congr_left fun x hx => UInt32.toNat_ofNat_of_lt' ?_
  have hget := List.mem_zipIdx_iff_getElem?.mp (List.mem_of_mem_filter hx)
  exact (List.getElem?_eq_some_iff.mp hget).1.trans_le h

/-- **Positions are true as long as there are no more than 2 ^ 32 edges**, and no longer. -/
theorem Indexed.positionsTrue_iff (h : c.Indexed) : c.PositionsTrue ↔ c.edgeCount ≤ 2 ^ 32 := by
  rw [← length_edges]
  constructor
  · intro htrue
    by_contra hlt
    rw [Nat.not_le] at hlt
    -- the edge at the first position that does not fit
    have hmem : 2 ^ 32 ∈ indicesOf (fun e => e.descendant == c.edges[2 ^ 32].descendant) c.edges :=
      mem_indicesOf.mpr ⟨_, List.getElem?_eq_getElem hlt, beq_self_eq_true _⟩
    rw [← htrue.up] at hmem
    obtain ⟨position, -, hposition⟩ := List.mem_map.mp hmem
    exact position.toNat_lt.ne hposition
  · intro hle
    refine ⟨fun id => ?_, fun id => ?_⟩
    · rw [h.down, map_toNat_positionsOf hle]
    · rw [h.up, map_toNat_positionsOf hle]

/-- **When positions are true**: as long as the depths of the entries, one more for each, have a sum
of 2 ^ 32 at most. -/
theorem linkAll_positionsTrue_iff (requests : List Link) : ∃ depth : EntryId → Nat,
    (∀ l ∈ granted {} requests, ∃ root, ⟨root, none⟩ ∈ granted {} requests ∧
      Above (granted {} requests) root l.id (depth l.id)) ∧
    ((linkAll {} requests).PositionsTrue ↔
      ((granted {} requests).map fun l => depth l.id + 1).sum ≤ 2 ^ 32) := by
  have hgrown := Grown.empty.linkAll requests
  rw [List.nil_append] at hgrown
  obtain ⟨depth, hdepth, hcount⟩ := hgrown.edgeCount_eq
  exact ⟨depth, hdepth, hcount ▸ hgrown.indexed.positionsTrue_iff⟩

/-! ## Chains -/

/-- The request that links an entry below the one before it, the first as a root. -/
def chainLink : Nat → Link
  | 0 => ⟨.atSlot 0, none⟩
  | i + 1 => ⟨.atSlot (i + 1), some (.atSlot i)⟩

/-- The requests for entries that lie each below the one before it. -/
def chain (n : Nat) : List Link := (List.range n).map chainLink

theorem chain_succ : chain (n + 1) = chain n ++ [chainLink n] := by
  rw [chain, List.range_succ, List.map_append, List.map_singleton, chain]

theorem length_chain : (chain n).length = n := by
  rw [chain, List.length_map, List.length_range]

theorem id_chainLink : (chainLink n).id = .atSlot n := by
  cases n <;> rfl

theorem mem_chain (h : i < n) : chainLink i ∈ chain n :=
  List.mem_map_of_mem (List.mem_range.mpr h)

theorem granted_sublist (c : Closure) (requests : List Link) :
    (c.granted requests).Sublist requests := by
  induction requests generalizing c with
  | nil => exact .slnil
  | cons l requests ih =>
    rw [granted]
    split
    · exact (ih _).cons_cons l
    · exact (ih c).cons l

theorem insert_chainLink (hn : n < EntryId.capacity)
    (h : Grown (chain n) (linkAll {} (chain n))) :
    (linkAll {} (chain n)).insert (chainLink n).id (chainLink n).parent? =
      .ok (linkAll {} (chain (n + 1))) := by
  have hnext : ∃ c', (linkAll {} (chain n)).insert (chainLink n).id (chainLink n).parent? =
      .ok c' := by
    refine (h.insert_iff _).mpr ⟨?_, fun p hp => ?_⟩
    · rw [id_chainLink, length_chain, EntryId.ofSlot?_eq_atSlot hn]
    cases n with
    | zero => cases hp
    | succ n =>
      obtain rfl := Option.some.inj hp
      exact ⟨_, mem_chain (Nat.lt_succ_self n), id_chainLink⟩
  obtain ⟨c', hc'⟩ := hnext
  have hlast : (linkAll {} (chain n)).link (chainLink n) = c' := by rw [link, hc']
  rw [hc', chain_succ, linkAll, List.foldl_append]
  exact congrArg Except.ok hlast.symm

/-- **A chain grows link by link**, as long as there are numbers. -/
theorem grown_chain (hn : n ≤ EntryId.capacity) : Grown (chain n) (linkAll {} (chain n)) := by
  induction n with
  | zero => exact .empty
  | succ n ih =>
    have hbefore := ih (Nat.le_of_succ_le hn)
    have hgrown := hbefore.insert (insert_chainLink hn hbefore)
    rwa [← chain_succ] at hgrown

/-- In a chain every entry is above those that come later. -/
theorem above_chain {k : Nat} (hi : i < n) (hk : k ≤ i) :
    Above (chain n) (.atSlot (i - k)) (.atSlot i) k := by
  induction k generalizing i with
  | zero =>
    have hself := Above.self (mem_chain hi)
    rwa [id_chainLink] at hself
  | succ k ih =>
    obtain ⟨j, rfl⟩ := Nat.exists_eq_succ_of_ne_zero (Nat.ne_zero_of_lt hk)
    have hstep := Above.step (mem_chain hi) rfl
      (ih (Nat.lt_of_succ_lt hi) (Nat.le_of_succ_le_succ hk))
    rwa [id_chainLink, ← Nat.succ_sub_succ_eq_sub] at hstep

theorem granted_chain (hn : n ≤ EntryId.capacity) : granted {} (chain n) = chain n := by
  have hgranted := Grown.empty.linkAll (chain n)
  have hids := hgranted.map_id.trans (grown_chain hn).map_id.symm
  refine (granted_sublist _ _).eq_of_length ?_
  simpa using congrArg List.length hids

theorem length_ancestors_chain (hn : n ≤ EntryId.capacity) (h : i < n) :
    ((linkAll {} (chain n)).ancestors (.atSlot i)).length = i + 1 := by
  induction i with
  | zero => exact (grown_chain hn).length_ancestors_eq (mem_chain h)
  | succ i ih =>
    have hlength := (grown_chain hn).length_ancestors_eq (mem_chain h)
    rw [id_chainLink] at hlength
    rw [hlength]
    exact congrArg (· + 1) (ih (Nat.lt_of_succ_lt h))

theorem edgeCount_chain_succ (hn : n < EntryId.capacity) :
    (linkAll {} (chain (n + 1))).edgeCount = (linkAll {} (chain n)).edgeCount + (n + 1) := by
  have hgrown := grown_chain hn.le
  rw [edgeCount_insert hgrown.indexed (insert_chainLink hn hgrown), id_chainLink,
    length_ancestors_chain hn (Nat.lt_succ_self n)]

/-- **A chain has a triangular number of edges.** -/
theorem edgeCount_chain (hn : n ≤ EntryId.capacity) :
    (linkAll {} (chain n)).edgeCount * 2 = n * (n + 1) := by
  induction n with
  | zero => rfl
  | succ n ih =>
    rw [edgeCount_chain_succ hn, Nat.add_mul, ih (Nat.le_of_succ_le hn)]
    ring

/-! ## Beyond the limit -/

theorem indicesOf_append {xs ys : List Edge} (hxs : ∀ e ∈ xs, p e = false)
    (hys : ∀ e ∈ ys, p e) : indicesOf p (xs ++ ys) = List.range' xs.length ys.length := by
  have hfirst : xs.zipIdx.filter (fun x => p x.1) = [] := by
    refine List.filter_eq_nil_iff.mpr fun x hx => ?_
    rw [hxs x.1 (List.fst_mem_of_mem_zipIdx hx)]
    exact Bool.false_ne_true
  have hsecond : (ys.zipIdx xs.length).filter (fun x => p x.1) = ys.zipIdx xs.length :=
    List.filter_eq_self.mpr fun x hx => hys x.1 (List.fst_mem_of_mem_zipIdx hx)
  rw [indicesOf, List.zipIdx_append, List.filter_append, hfirst, List.nil_append, Nat.zero_add,
    hsecond, List.zipIdx_map_snd]

/-- **What is read at a position** is the edge at that position modulo 2 ^ 32. -/
theorem edgesIn_eq_filterMap {table : PositionTable} {id : EntryId}
    (hrow : table.row id = positionsOf p c.edges) : c.edgesIn table id =
      (indicesOf p c.edges).filterMap fun i => c.edges[i % 2 ^ 32]? := by
  rw [edgesIn, hrow, positionsOf, indicesOf, List.filterMap_map, List.filterMap_map]
  refine List.filterMap_congr fun x _ => ?_
  rw [Function.comp_apply, Function.comp_apply, edges, Array.getElem?_toList]
  rfl

theorem ancestors_chain (hn : n ≤ EntryId.capacity) (hs : (linkAll {} (chain n)).Fits)
    (hi : i < n) : (linkAll {} (chain n)).ancestors (.atSlot i) =
      (List.range (i + 1)).map fun k => ⟨.atSlot (i - k), k⟩ := by
  have hlength := length_ancestors_chain hn hi
  refine List.ext_getElem (by rw [hlength, List.length_map, List.length_range]) fun k hk _ => ?_
  rw [hlength] at hk
  have hget : ((linkAll {} (chain n)).ancestors (.atSlot i))[k]? = some ⟨.atSlot (i - k), k⟩ :=
    ((grown_chain hn).getElem?_ancestors_iff hs).mpr ⟨rfl, above_chain hi (Nat.le_of_lt_succ hk)⟩
  rw [(List.getElem?_eq_some_iff.mp hget).2, List.getElem_map, List.getElem_range]

section

variable (hn : n < EntryId.capacity)

include hn

theorem not_contains_chain : ¬ (linkAll {} (chain n)).contains (.atSlot n) := by
  rw [← id_chainLink]
  exact not_contains_of_insert (insert_chainLink hn (grown_chain hn.le))

/-- The edges that come with the next entry of a chain, as long as the first is below the limit. -/
theorem edges_chain_succ (hs : (linkAll {} (chain n)).edgeCount < 2 ^ 32) :
    (linkAll {} (chain (n + 1))).edges = (linkAll {} (chain n)).edges ++
      (List.range (n + 1)).map fun k => ⟨.atSlot (n - k), .atSlot n, k⟩ := by
  have hgrown := grown_chain hn.le
  have hinsert := insert_chainLink hn hgrown
  obtain ⟨-, hparent, hextend⟩ := insert_eq_ok_iff.mp hinsert
  have hfits : ((linkAll {} (chain n)).pushSelf (chainLink n).id).Fits := by
    rw [Fits, ← length_edges, edges_pushSelf, List.length_append, length_edges]
    exact hs
  have hlineage : (linkAll {} (chain n)).lineage (.atSlot n) (chainLink n).parent? =
      (List.range (n + 1)).map fun k => ⟨.atSlot (n - k), k⟩ := by
    cases n with
    | zero => rfl
    | succ n =>
      rw [chainLink, lineage_some, ancestors_chain hn.le hs.le (Nat.lt_succ_self n), List.map_map]
      conv_rhs => rw [List.range_succ_eq_map, List.map_cons, List.map_map]
      refine congrArg (List.cons _) (List.map_congr_left fun k _ => ?_)
      rw [Function.comp_apply, Function.comp_apply, Nat.succ_sub_succ_eq_sub]
  rw [hextend, edges_extend_of_fits hgrown.indexed (slot_of_insert hinsert) hparent hfits,
    id_chainLink, hlineage, List.map_map]
  rfl

theorem getElem?_edges_chain_zero :
    (linkAll {} (chain (n + 1))).edges[0]? = some ⟨.atSlot 0, .atSlot 0, 0⟩ := by
  induction n with
  | zero => rfl
  | succ n ih =>
    have hbefore := Nat.lt_of_succ_lt hn
    obtain ⟨-, -, hextend⟩ := insert_eq_ok_iff.mp (insert_chainLink hn (grown_chain hbefore))
    have hprefix := (linkAll {} (chain (n + 1))).edges_isPrefix_extend
      (chainLink (n + 1)).id (chainLink (n + 1)).parent?
    obtain ⟨hlt, hget⟩ := List.getElem?_eq_some_iff.mp (ih hbefore)
    rw [hextend, List.prefix_iff_getElem?.mp hprefix 0 hlt, hget]

/-- The edges that lead up from the last entry of a chain come last. -/
theorem indicesOf_chain (hs : (linkAll {} (chain n)).edgeCount < 2 ^ 32) :
    indicesOf (fun e => e.descendant == .atSlot n) (linkAll {} (chain (n + 1))).edges =
      List.range' (linkAll {} (chain n)).edgeCount (n + 1) := by
  have hnone := List.countP_eq_zero.mp
    (countP_of_not_contains (grown_chain hn.le).indexed (not_contains_chain hn))
  rw [edges_chain_succ hn hs,
    indicesOf_append (fun e he => Bool.eq_false_iff.mpr (hnone e he)) fun e he => ?_,
    length_edges, List.length_map, List.length_range]
  obtain ⟨k, -, rfl⟩ := List.mem_map.mp he
  exact beq_self_eq_true _

/-- **Beyond the limit the first edges are read.** If the edges of the last entry of a chain cross
the limit, the entry is said to be at no distance from the root. -/
theorem depth?_chain_of_lt (hs : (linkAll {} (chain n)).edgeCount < 2 ^ 32)
    (hlt : 2 ^ 32 < (linkAll {} (chain (n + 1))).edgeCount) :
    (linkAll {} (chain (n + 1))).depth? (.atSlot 0) (.atSlot n) = some 0 := by
  have hup := (grown_chain hn).indexed.up (.atSlot n)
  have hzero := getElem?_edges_chain_zero hn
  rw [edgeCount_chain_succ hn] at hlt
  -- those below the limit lead to other entries, and the next one read is the first of all edges
  have hfind : (List.range' (linkAll {} (chain n)).edgeCount (n + 1)).find? (fun i =>
      ((linkAll {} (chain (n + 1))).edges[i % 2 ^ 32]?).any fun e => e.ancestor == .atSlot 0) =
        some (2 ^ 32) := by
    refine List.find?_range'_eq_some.mpr
      ⟨?_, List.mem_range'_1.mpr ⟨hs.le, hlt⟩, fun j hj hjlt => ?_⟩
    · rw [Nat.mod_self, hzero]
      rfl
    · obtain ⟨k, rfl⟩ := Nat.exists_eq_add_of_le hj
      have hk : k < n := by omega
      have hne : EntryId.atSlot (n - k) ≠ .atSlot 0 :=
        mt (EntryId.atSlot_inj ((n.sub_le k).trans_lt hn) (by decide)).mp (Nat.sub_ne_zero_of_lt hk)
      rw [Nat.mod_eq_of_lt hjlt, edges_chain_succ hn hs, ← length_edges,
        List.getElem?_append_right (Nat.le_add_right _ k), Nat.add_sub_cancel_left,
        List.getElem?_map, List.getElem?_range (Nat.lt_succ_of_lt hk), Option.map_some,
        Option.any_some, beq_eq_false_iff_ne.mpr hne, Bool.not_false]
  rw [depth?, ancestors, List.find?_map, edgesIn_eq_filterMap hup, indicesOf_chain hn hs,
    List.find?_filterMap]
  simp only [Function.comp_def]
  rw [hfind, Option.bind_some, Nat.mod_self, hzero]
  rfl

end

/-- **A bound on the number of entries does not keep positions true.** All requests of this chain
are granted; its last entry is 92681 steps below the first, and the tables say that it is at no
distance. -/
theorem chain_positions_wrap : granted {} (chain 92682) = chain 92682 ∧
    (chain 92682).length ≤ 2 ^ 32 - 2 ∧ ¬ (linkAll {} (chain 92682)).PositionsTrue ∧
    Above (chain 92682) (.ofSlot 0) (.ofSlot 92681) 92681 ∧
    (linkAll {} (chain 92682)).depth? (.ofSlot 0) (.ofSlot 92681) = some 0 := by
  have hlast : 92681 < EntryId.capacity := by decide
  have hbefore := edgeCount_chain hlast.le
  have hcount := edgeCount_chain (n := 92681 + 1) hlast
  have hlt : 2 ^ 32 < (linkAll {} (chain (92681 + 1))).edgeCount := by omega
  have habove := above_chain (show 92681 < 92682 by decide) le_rfl
  rw [Nat.sub_self] at habove
  refine ⟨granted_chain hlast, length_chain.trans_le (by decide), fun htrue => ?_, habove,
    depth?_chain_of_lt hlast (by omega) hlt⟩
  exact hlt.not_ge ((grown_chain hlast).indexed.positionsTrue_iff.mp htrue)

end TreeQuery.Closure
