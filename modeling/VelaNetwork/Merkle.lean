import VelaNetwork.WorldState
import VelaNetwork.Sample
import VelaNetwork.Library.MerkleTrees

namespace VelaNetwork

open Library.ByteStrings Library.MerkleTrees

variable (P : Primitives)

def combineHashes (a b : Hash) : Hash := ⟨P.blake3 (a.bytes.toList ++ b.bytes.toList)⟩

section Levels

variable {P}

theorem hashPairs_eq (hashes : List Hash) :
    hashPairs P hashes = (pairs hashes).map fun p => combineHashes P p.1 p.2 := by
  induction hashes using pairs.induct with
  | case1 => rfl
  | case2 a => rfl
  | case3 a b rest ih =>
    rw [hashPairs, ih]
    rfl

theorem merkleLevels_eq (hashes : List Hash) :
    merkleLevels P hashes = (root (combineHashes P) hashes).getD Hash.zero := by
  induction hashes using root.induct (combineHashes P) with
  | case1 hashes hmany ih =>
    rw [root_of_many hmany, merkleLevels, if_pos hmany, hashPairs_eq]
    exact ih
  | case2 hashes hfew =>
    rw [root_of_few hfew, merkleLevels, if_neg hfew, List.headD_eq_head?_getD]

end Levels

def NoCollision (inputs : List Bytes) : Prop := ∀ x ∈ inputs, ∀ y ∈ inputs, P.blake3 x = P.blake3 y → x = y

def BlockHeader.bytes (header : BlockHeader) : Bytes := (P.serializeHeader header).getD []

def hashedInRoot (txs : List Transaction) : List Bytes :=
  txs.flatMap (fun tx => [tx.signingPreimage, tx.signingBytes P]) ++
    (combined (combineHashes P) (txs.map (·.hash P))).map fun p => p.1.bytes.toList ++ p.2.bytes.toList

def Block.hashed (block : Block) : List Bytes := block.header.bytes P :: hashedInRoot P block.transactions

def Transaction.unsigned (tx : Transaction) : Transaction := { tx with signature := none }

section Encoding

theorem u64LeBytes_injective {m n : UInt64} (h : u64LeBytes m = u64LeBytes n) : m = n :=
  UInt64.toNat_inj.mp (leBytes_injective m.toNat_lt n.toNat_lt h)

theorem i64LeBytes_injective {m n : Int64} (h : i64LeBytes m = i64LeBytes n) : m = n :=
  Int64.toBitVec_inj.mp (BitVec.eq_of_toNat_eq (leBytes_injective m.toBitVec.isLt n.toBitVec.isLt h))

theorem bytes32_append_inj {a b : Bytes32} {rest rest' : Bytes} (h : a.toList ++ rest = b.toList ++ rest') :
    a = b ∧ rest = rest' := by
  obtain ⟨hword, hrest⟩ := List.append_inj h (by rw [Vector.length_toList, Vector.length_toList])
  exact ⟨Vector.toList_inj.mp hword, hrest⟩

theorem u64LeBytes_append_inj {m n : UInt64} {rest rest' : Bytes}
    (h : u64LeBytes m ++ rest = u64LeBytes n ++ rest') :
    m = n ∧ rest = rest' := by
  obtain ⟨hword, hrest⟩ := List.append_inj h (by rw [u64LeBytes, u64LeBytes, leBytes_length, leBytes_length])
  exact ⟨u64LeBytes_injective hword, hrest⟩

theorem i64LeBytes_append_inj {m n : Int64} {rest rest' : Bytes}
    (h : i64LeBytes m ++ rest = i64LeBytes n ++ rest') :
    m = n ∧ rest = rest' := by
  obtain ⟨hword, hrest⟩ := List.append_inj h (by rw [i64LeBytes, i64LeBytes, leBytes_length, leBytes_length])
  exact ⟨i64LeBytes_injective hword, hrest⟩

theorem signingPreimage_injective {tx tx' : Transaction} (h : tx.signingPreimage = tx'.signingPreimage) :
    tx.unsigned = tx'.unsigned := by
  simp only [Transaction.signingPreimage, List.append_assoc] at h
  obtain ⟨hfrom, h⟩ := bytes32_append_inj h
  obtain ⟨hto, h⟩ := bytes32_append_inj h
  obtain ⟨hamount, h⟩ := u64LeBytes_append_inj h
  obtain ⟨hfee, h⟩ := u64LeBytes_append_inj h
  obtain ⟨hnonce, h⟩ := u64LeBytes_append_inj h
  obtain ⟨htimestamp, hdata⟩ := i64LeBytes_append_inj h
  obtain ⟨⟨_⟩, ⟨_⟩, _, _, _, _, _, _⟩ := tx
  obtain ⟨⟨_⟩, ⟨_⟩, _, _, _, _, _, _⟩ := tx'
  dsimp only at hfrom hto hamount hfee hnonce htimestamp hdata
  rw [Transaction.unsigned, Transaction.unsigned, hfrom, hto, hamount, hfee, hnonce, htimestamp, hdata]

end Encoding

section Collisions

variable {P}

theorem NoCollision.mono {xs ys : List Bytes} (h : NoCollision P ys) (hsub : xs ⊆ ys) : NoCollision P xs :=
  fun x hx y hy => h x (hsub hx) y (hsub hy)

theorem NoCollision.hash_injective {inputs : List Bytes} (h : NoCollision P inputs) {tx tx' : Transaction}
    (hpre : tx.signingPreimage ∈ inputs) (hbytes : tx.signingBytes P ∈ inputs)
    (hpre' : tx'.signingPreimage ∈ inputs) (hbytes' : tx'.signingBytes P ∈ inputs)
    (heq : tx.hash P = tx'.hash P) : tx.unsigned = tx'.unsigned := by
  have hsigned : tx.signingBytes P = tx'.signingBytes P := h _ hbytes _ hbytes' (Hash.mk.inj heq)
  have hdigest : P.blake3 tx.signingPreimage = P.blake3 tx'.signingPreimage := Vector.toList_inj.mp hsigned
  exact signingPreimage_injective (h _ hpre _ hpre' hdigest)

theorem NoCollision.separates {ps : List (Hash × Hash)}
    (h : NoCollision P (ps.map fun p => p.1.bytes.toList ++ p.2.bytes.toList)) :
    Separates (combineHashes P) ps := by
  intro p hp q hq heq
  have hbytes : p.1.bytes.toList ++ p.2.bytes.toList = q.1.bytes.toList ++ q.2.bytes.toList :=
    h _ (List.mem_map_of_mem hp) _ (List.mem_map_of_mem hq) (Hash.mk.inj heq)
  obtain ⟨hleft, hright⟩ := bytes32_append_inj hbytes
  obtain ⟨⟨_⟩, ⟨_⟩⟩ := p
  obtain ⟨⟨_⟩, ⟨_⟩⟩ := q
  dsimp only at hleft hright
  rw [hleft, Vector.toList_inj.mp hright]

theorem mem_hashedInRoot {txs : List Transaction} {tx : Transaction} (htx : tx ∈ txs) :
    tx.signingPreimage ∈ hashedInRoot P txs ∧ tx.signingBytes P ∈ hashedInRoot P txs := by
  constructor
  · apply List.mem_append_left
    exact List.mem_flatMap.mpr ⟨tx, htx, List.mem_cons_self⟩
  · apply List.mem_append_left
    exact List.mem_flatMap.mpr ⟨tx, htx, List.mem_cons_of_mem _ List.mem_cons_self⟩

theorem merkleRoot_eq {txs : List Transaction} :
    merkleRoot P txs = (root (combineHashes P) (txs.map (·.hash P))).getD Hash.zero := by
  unfold merkleRoot
  cases txs with
  | nil => rw [List.map_nil, root_of_few (by simp)]; rfl
  | cons tx txs =>
    rw [List.isEmpty_cons, if_neg (by simp)]
    exact merkleLevels_eq _

theorem hashes_eq_of_merkleRoot {txs txs' : List Transaction}
    (hcollision : NoCollision P (hashedInRoot P txs ++ hashedInRoot P txs'))
    (hcount : txs.length = txs'.length) (h : merkleRoot P txs = merkleRoot P txs') :
    txs.map (·.hash P) = txs'.map (·.hash P) := by
  by_cases hempty : txs = []
  · subst hempty
    rw [List.length_eq_zero_iff.mp hcount.symm]
  · have hempty' : txs' ≠ [] := by
      rintro rfl
      exact hempty (List.length_eq_zero_iff.mp hcount)
    obtain ⟨r, hr⟩ := exists_root (combineHashes P) (mt List.map_eq_nil_iff.mp hempty)
    obtain ⟨r', hr'⟩ := exists_root (combineHashes P) (mt List.map_eq_nil_iff.mp hempty')
    apply root_injective (by rw [List.length_map, List.length_map, hcount])
    · apply NoCollision.separates
      rw [List.map_append]
      apply hcollision.mono
      intro x hx
      rcases List.mem_append.mp hx with hx | hx
      · exact List.mem_append_left _ (List.mem_append_right _ hx)
      · exact List.mem_append_right _ (List.mem_append_right _ hx)
    · rw [merkleRoot_eq, merkleRoot_eq, hr, hr'] at h
      rw [hr, hr']
      exact congrArg some h

theorem merkleRoot_injective {txs txs' : List Transaction}
    (hcollision : NoCollision P (hashedInRoot P txs ++ hashedInRoot P txs'))
    (hcount : txs.length = txs'.length) (h : merkleRoot P txs = merkleRoot P txs') :
    txs.map (·.unsigned) = txs'.map (·.unsigned) := by
  have hhashes := hashes_eq_of_merkleRoot hcollision hcount h
  apply List.ext_getElem (by rw [List.length_map, List.length_map, hcount])
  intro i hi hi'
  rw [List.length_map] at hi hi'
  rw [List.getElem_map, List.getElem_map]
  obtain ⟨hpre, hbytes⟩ := mem_hashedInRoot (P := P) (List.getElem_mem hi)
  obtain ⟨hpre', hbytes'⟩ := mem_hashedInRoot (P := P) (List.getElem_mem hi')
  have hhash : (txs[i]).hash P = (txs'[i]).hash P := by
    have hat := List.getElem_of_eq hhashes (by rwa [List.length_map])
    rwa [List.getElem_map, List.getElem_map] at hat
  exact hcollision.hash_injective (List.mem_append_left _ hpre) (List.mem_append_left _ hbytes)
    (List.mem_append_right _ hpre') (List.mem_append_right _ hbytes') hhash

end Collisions

namespace WorldState

theorem applyTxs_unsigned (w : WorldState) (txs : List Transaction) :
    w.applyTxs (txs.map (·.unsigned)) = w.applyTxs txs := by
  rw [applyTxs, applyTxs, List.foldl_map]
  rfl

theorem applyBlock_of_hash (P : Primitives) (hbincode : Function.Injective (BlockHeader.bytes P))
    (w : WorldState) (b b' : Block) (hroot : b.header.txRoot = merkleRoot P b.transactions)
    (hroot' : b'.header.txRoot = merkleRoot P b'.transactions)
    (hcollision : NoCollision P (b.hashed P ++ b'.hashed P))
    (hcount : b.transactions.length = b'.transactions.length) (hhash : b.hash P = b'.hash P) :
    w.applyBlock P b = w.applyBlock P b' := by
  have hheader : b.header = b'.header := by
    apply hbincode
    exact hcollision _ (List.mem_append_left _ List.mem_cons_self) _
      (List.mem_append_right _ List.mem_cons_self)
      (Hash.mk.inj hhash)
  have hunsigned : b.transactions.map (·.unsigned) = b'.transactions.map (·.unsigned) := by
    apply merkleRoot_injective _ hcount (by rw [← hroot, ← hroot', hheader])
    apply hcollision.mono
    intro x hx
    rcases List.mem_append.mp hx with hx | hx
    · exact List.mem_append_left _ (List.mem_cons_of_mem _ hx)
    · exact List.mem_append_right _ (List.mem_cons_of_mem _ hx)
  have hmint : w.mint P b = w.mint P b' := by rw [mint, mint, hheader]
  rw [applyBlock, applyBlock, hmint, ← applyTxs_unsigned _ b.transactions, hunsigned, applyTxs_unsigned]

section Runs

theorem sample_bytes_injective : Function.Injective (BlockHeader.bytes .sample) := by
  intro header header' h
  change u64LeBytes header.height ++ _ ++ _ ++ _ ++ _ ++ _ ++ _ =
    u64LeBytes header'.height ++ _ ++ _ ++ _ ++ _ ++ _ ++ _ at h
  simp only [List.append_assoc] at h
  obtain ⟨hheight, h⟩ := u64LeBytes_append_inj h
  obtain ⟨hparent, h⟩ := bytes32_append_inj h
  obtain ⟨htxRoot, h⟩ := bytes32_append_inj h
  obtain ⟨hstateRoot, h⟩ := bytes32_append_inj h
  obtain ⟨htimestamp, h⟩ := i64LeBytes_append_inj h
  obtain ⟨hproposer, hround⟩ := bytes32_append_inj h
  have hround := u64LeBytes_injective hround
  obtain ⟨_, ⟨_⟩, ⟨_⟩, ⟨_⟩, _, ⟨_⟩, _⟩ := header
  obtain ⟨_, ⟨_⟩, ⟨_⟩, ⟨_⟩, _, ⟨_⟩, _⟩ := header'
  dsimp only at hheight hparent htxRoot hstateRoot htimestamp hproposer hround
  rw [hheight, hparent, htxRoot, hstateRoot, htimestamp, hproposer, hround]

noncomputable def transfer (amount : UInt64) : Transaction :=
  Transaction.new 5 (treasuryAddr .sample) (sampleAddr 7) amount 1 1

noncomputable def threeTransfers : Block where
  header :=
    { height := 1, parentHash := Hash.zero, stateRoot := Hash.zero, timestamp := 5, proposer := Address.zero,
      round := 1,
      txRoot := combineHashes .sample
        (combineHashes .sample ((transfer 1).hash .sample) ((transfer 2).hash .sample))
        (combineHashes .sample ((transfer 3).hash .sample) ((transfer 3).hash .sample)) }
  transactions := [transfer 1, transfer 2, transfer 3]
  qc := none

noncomputable def repeatedTransfer : Block :=
  { threeTransfers with transactions := threeTransfers.transactions ++ [transfer 3] }

noncomputable def signedTransfers : Block :=
  { threeTransfers with
    transactions := threeTransfers.transactions.map fun tx => tx.sign .sample treasuryKey }

theorem threeTransfers_root :
    threeTransfers.header.txRoot = merkleRoot .sample threeTransfers.transactions := by
  rw [merkleRoot_eq]
  change _ = (root _ [_, _, _]).getD _
  rw [root_three]
  rfl

theorem transfers_noCollision :
    NoCollision .sample (threeTransfers.hashed .sample ++ repeatedTransfer.hashed .sample) := by
  rw [Block.hashed, Block.hashed, hashedInRoot, hashedInRoot]
  change NoCollision .sample
    (_ :: (_ ++ (combined _ [_, _, _]).map _) ++ _ :: (_ ++ (combined _ ([_, _, _] ++ [_])).map _))
  rw [combined_repeat_last rfl rfl (by simp), combined_three]
  unfold NoCollision
  decide +kernel

theorem applyBlock_of_hash_signed :
    WorldState.new.applyBlock .sample threeTransfers = WorldState.new.applyBlock .sample signedTransfers := by
  have hcollision : NoCollision .sample
      (threeTransfers.hashed .sample ++ signedTransfers.hashed .sample) := by
    apply transfers_noCollision.mono
    intro x hx
    rcases List.mem_append.mp hx with hx | hx
    · exact List.mem_append_left _ hx
    · exact List.mem_append_left _ hx
  exact applyBlock_of_hash .sample sample_bytes_injective WorldState.new threeTransfers signedTransfers
    threeTransfers_root
    threeTransfers_root hcollision rfl rfl

theorem hash_hides_repetition : Function.Injective (BlockHeader.bytes .sample) ∧
    threeTransfers.header.txRoot = merkleRoot .sample threeTransfers.transactions ∧
    repeatedTransfer.header.txRoot = merkleRoot .sample repeatedTransfer.transactions ∧
    NoCollision .sample (threeTransfers.hashed .sample ++ repeatedTransfer.hashed .sample) ∧
    threeTransfers.hash .sample = repeatedTransfer.hash .sample ∧
    ((WorldState.new.applyBlock .sample Block.genesis).applyBlock .sample threeTransfers).totalTxs ≠
      ((WorldState.new.applyBlock .sample Block.genesis).applyBlock .sample repeatedTransfer).totalTxs := by
  have hrepeated : merkleRoot .sample repeatedTransfer.transactions =
      merkleRoot .sample threeTransfers.transactions := by
    rw [merkleRoot_eq, merkleRoot_eq]
    change (root _ (List.map _ threeTransfers.transactions ++ [(transfer 3).hash .sample])).getD _ = _
    rw [root_repeat_last rfl rfl (by decide)]
  exact ⟨sample_bytes_injective, threeTransfers_root, threeTransfers_root.trans hrepeated.symm,
    transfers_noCollision, rfl, by decide +kernel⟩

end Runs

end WorldState

end VelaNetwork
