import VelaNetwork.Replay
import Mathlib.Data.Set.List

namespace VelaNetwork

open Library.OrderedMaps

variable (P : Primitives)

def lastAt (blocks : List Block) (height : UInt64) : Option Block :=
  blocks.reverse.find? fun b => b.header.height = height

namespace BlockDb

section Store

variable {P} {blocks stored : List Block}

theorem saveAll_tree (hP : P.BincodeRoundTrips) (db : BlockDb) (blocks : List Block) :
    (db.saveAll P blocks).tree = insertAll db.tree (blocks.map (entry P)) := by
  induction blocks generalizing db with
  | nil => rfl
  | cons block rest ih =>
    change (((db.saveBlock P true block).getD db).saveAll P rest).tree = _
    rw [ih, saveBlock_true hP]
    rfl

theorem entry_injective (hP : P.BincodeRoundTrips) {a b : Block} (h : entry P a = entry P b) : a = b := by
  apply Option.some.inj
  rw [← deserialize_entry hP, ← deserialize_entry hP, h]

theorem compare_key_eq_iff (a b : Block) :
    compare (entry P a).1 (entry P b).1 = .eq ↔ a.header.height = b.header.height := by
  rw [compare_entry, compare_eq_iff_eq, UInt64.toNat_inj]

theorem lastAt_height {height : UInt64} {b : Block} (h : lastAt blocks height = some b) :
    b.header.height = height := by
  have hfound := List.find?_some h
  exact of_decide_eq_true hfound

theorem getElem?_saveAll (hP : P.BincodeRoundTrips) (blocks : List Block) (block : Block) :
    (BlockDb.empty.saveAll P blocks).tree[(entry P block).1]? =
      (lastAt blocks block.header.height).map fun b => (entry P b).2 := by
  have hfind : (blocks.map (entry P)).reverse.find? (fun e => compare e.1 (entry P block).1 = .eq) =
      (lastAt blocks block.header.height).map (entry P) := by
    rw [← List.map_reverse, List.find?_map, lastAt]
    congr 2
    funext b
    exact decide_eq_decide.mpr (compare_key_eq_iff b block)
  rw [saveAll_tree hP, getElem?_insertAll, hfind, Option.map_map]
  exact Option.or_none

/-- Keys compare as heights do, so that the store is in height order however the blocks were saved. -/
theorem holds_lastAt (hP : P.BincodeRoundTrips) (blocks : List Block) : ∃ stored,
    (BlockDb.empty.saveAll P blocks).Holds P stored ∧ Ascending stored ∧
      ∀ b, b ∈ stored ↔ lastAt blocks b.header.height = some b := by
  have hmem : ∀ b, entry P b ∈ (BlockDb.empty.saveAll P blocks).tree.toList ↔
      lastAt blocks b.header.height = some b := by
    intro b
    rw [Std.ExtTreeMap.mem_toList_iff_getElem?_eq_some, getElem?_saveAll hP, Option.map_eq_some_iff]
    constructor
    · rintro ⟨b', hlast, hval⟩
      have hsame : b' = b := by
        apply Option.some.inj
        rw [← deserialize_entry hP, hval, deserialize_entry hP]
      rwa [hsame] at hlast
    · intro hlast
      exact ⟨b, hlast, rfl⟩
  have hentries : (BlockDb.empty.saveAll P blocks).tree.toList ∈ Set.range (List.map (entry P)) := by
    rw [Set.range_list_map]
    intro e he
    rw [saveAll_tree hP] at he
    rcases mem_toList_insertAll he with hsaved | hnone
    · obtain ⟨b, _, rfl⟩ := List.mem_map.mp hsaved
      exact ⟨b, rfl⟩
    · exact absurd hnone (List.eq_nil_iff_forall_not_mem.mp (Std.ExtTreeMap.toList_eq_nil_iff.mpr rfl) e)
  obtain ⟨stored, hstored⟩ := hentries
  refine ⟨stored, hstored.symm, ?_, ?_⟩
  · have hkeys := (BlockDb.empty.saveAll P blocks).tree.ordered_keys_toList
    rw [← hstored, List.pairwise_map] at hkeys
    apply hkeys.imp
    intro a b hlt
    rw [compare_entry, compare_lt_iff_lt] at hlt
    exact UInt64.lt_iff_toNat_lt.mpr hlt
  · intro b
    rw [← hmem, ← hstored]
    constructor
    · exact List.mem_map_of_mem
    · intro hb
      obtain ⟨b', hb', heq⟩ := List.mem_map.mp hb
      rwa [entry_injective hP heq] at hb'

theorem filter_height (hascending : Ascending stored)
    (hmem : ∀ b, b ∈ stored ↔ lastAt blocks b.header.height = some b) (height : UInt64) :
    stored.filter (fun b => b.header.height = height) = (lastAt blocks height).toList := by
  have hheights : ∀ b ∈ stored.filter (fun b => b.header.height = height), b ∈ stored ∧
      b.header.height = height := by
    intro b hb
    obtain ⟨hstored, heq⟩ := List.mem_filter.mp hb
    exact ⟨hstored, of_decide_eq_true heq⟩
  have hsorted : Ascending (stored.filter fun b => b.header.height = height) :=
    hascending.sublist List.filter_sublist
  cases hfilter : stored.filter (fun b => b.header.height = height) with
  | nil =>
    cases hlast : lastAt blocks height with
    | none => rfl
    | some b =>
      have hheight := lastAt_height hlast
      have hstored : b ∈ stored := (hmem b).mpr (hheight.symm ▸ hlast)
      have hnone := List.filter_eq_nil_iff.mp hfilter b hstored
      exact absurd (decide_eq_true hheight) hnone
  | cons b rest =>
    rw [hfilter] at hheights hsorted
    obtain ⟨hstored, hheight⟩ := hheights b List.mem_cons_self
    have hlast := (hmem b).mp hstored
    rw [hheight] at hlast
    rw [hlast]
    cases rest with
    | nil => rfl
    | cons b' rest =>
      obtain ⟨_, hheight'⟩ := hheights b' (List.mem_cons_of_mem _ List.mem_cons_self)
      have hlt := (List.pairwise_cons.mp hsorted).1 b' List.mem_cons_self
      rw [hheight, hheight'] at hlt
      exact absurd hlt (UInt64.lt_irrefl height)

theorem start_of_saved (hP : P.BincodeRoundTrips) (hne : blocks ≠ []) (saved : Bool) (i : Fin 3) : ∃ stored,
    (∀ b, b ∈ stored ↔ lastAt blocks b.header.height = some b) ∧
      Node.start P saved i (BlockDb.empty.saveAll P blocks) =
        some (Node.boot P i (BlockDb.empty.saveAll P blocks) stored) := by
  obtain ⟨stored, hholds, hascending, hmem⟩ := holds_lastAt hP blocks
  refine ⟨stored, hmem, ?_⟩
  rw [Node.start, loadAllBlocks_of_holds hP hholds hascending]
  cases stored with
  | nil =>
    obtain ⟨b, hb⟩ := List.exists_mem_of_ne_nil blocks hne
    have hsome : (lastAt blocks b.header.height).isSome = true := by
      unfold lastAt
      rw [List.find?_isSome]
      exact ⟨b, List.mem_reverse.mpr hb, decide_eq_true rfl⟩
    obtain ⟨b', hlast⟩ := Option.isSome_iff_exists.mp hsome
    have hstored := (hmem b').mpr ((lastAt_height hlast).symm ▸ hlast)
    exact absurd hstored List.not_mem_nil
  | cons b rest => rfl

end Store

theorem block_store_law (P : Primitives) (hP : P.BincodeRoundTrips) (blocks : List Block) : ∃ stored,
    (BlockDb.empty.saveAll P blocks).loadAllBlocks P = some stored ∧
      (∀ height, stored.filter (fun b => b.header.height = height) = (lastAt blocks height).toList) ∧
      Ascending stored ∧
      (BlockDb.empty.saveAll P blocks).tree.toList.mapM (fun item => P.deserializeBlock item.2) =
        some stored := by
  obtain ⟨stored, hholds, hascending, hmem⟩ := holds_lastAt hP blocks
  refine ⟨stored, ?_, ?_, hascending, ?_⟩
  · exact loadAllBlocks_of_holds hP hholds hascending
  · exact filter_height hascending hmem
  · exact decode_of_holds hP hholds

section Runs

def savedBlocks : List Block :=
  [(256, 1), (255, 2), (18446744073709551615, 3), (65536, 4), (256, 5)].map fun saved =>
    { Block.genesis with header := { Block.genesis.header with height := saved.1, round := saved.2 } }

theorem block_store_byteBoundary : ∃ stored,
    (BlockDb.empty.saveAll .sample savedBlocks).loadAllBlocks .sample = some stored ∧
      (∀ height, stored.filter (fun b => b.header.height = height) = (lastAt savedBlocks height).toList) ∧
      Ascending stored ∧
      (BlockDb.empty.saveAll .sample savedBlocks).tree.toList.mapM
        (fun item => Primitives.sample.deserializeBlock item.2) = some stored :=
  block_store_law .sample sample_roundTrips savedBlocks

end Runs

end BlockDb

end VelaNetwork
