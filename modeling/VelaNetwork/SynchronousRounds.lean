import VelaNetwork.ClosedRounds
import VelaNetwork.CommitRule

namespace VelaNetwork

open Library.Runs Library.Ballots HotStuffNode

variable {n : ℕ} {P : Primitives} {keys : Fin n → SigningKey}

section Delivery

variable {net : EngineNet n} {i : Fin n}

def broadcast (ks : List (Fin n)) (msg : HotStuffMsg) (order : IterOrder) : List (EngineEvent n) :=
  ks.map fun k => .deliver k msg order

variable (P) in
structure Delivered (net net' : EngineNet n) (ks : List (Fin n)) (msg : HotStuffMsg)
    (order : IterOrder) : Prop where
  received : ∀ k ∈ ks, net'.node k = ((net.node k).handle P order msg).1
  others : ∀ k ∉ ks, net'.node k = net.node k
  sent : ∀ m, m ∈ net'.sent ↔ m ∈ net.sent ∨ ∃ k ∈ ks, ((net.node k).handle P order msg).2 = some m

theorem update_node_self (net : EngineNet n) (i : Fin n) (r : HotStuffNode × Option HotStuffMsg) :
    (net.update i r).node i = r.1 := Function.update_self _ _ _

theorem update_node_of_ne (net : EngineNet n) {i k : Fin n} (h : k ≠ i)
    (r : HotStuffNode × Option HotStuffMsg) :
    (net.update i r).node k = net.node k := Function.update_of_ne h _ _

theorem delivered_broadcast {ks : List (Fin n)} (hks : ks.Nodup) (msg : HotStuffMsg) (order : IterOrder)
    (net : EngineNet n) :
    Delivered P net (run (EngineNet.step P) net (broadcast ks msg order)) ks msg order := by
  induction ks generalizing net with
  | nil =>
    refine ⟨fun k hk => absurd hk List.not_mem_nil, fun _ _ => rfl, fun m => ?_⟩
    simp [broadcast]
  | cons k ks ih =>
    obtain ⟨hk, hks⟩ := List.nodup_cons.mp hks
    have h := ih hks (net.step P (.deliver k msg order))
    have hself : (net.step P (.deliver k msg order)).node k = ((net.node k).handle P order msg).1 :=
      update_node_self net k _
    have hother : ∀ j, j ≠ k → (net.step P (.deliver k msg order)).node j = net.node j :=
      fun j hj => update_node_of_ne net hj _
    constructor
    · intro j hj
      rcases List.mem_cons.mp hj with rfl | hj
      · exact (h.others j hk).trans hself
      · have hne : j ≠ k := fun heq => hk (heq ▸ hj)
        exact (h.received j hj).trans (by rw [hother j hne])
    · intro j hj
      rw [List.mem_cons, not_or] at hj
      exact (h.others j hj.2).trans (hother j hj.1)
    · intro m
      refine (h.sent m).trans ?_
      have hstep : m ∈ (net.step P (.deliver k msg order)).sent ↔
          m ∈ net.sent ∨ ((net.node k).handle P order msg).2 = some m := mem_sent_update
      have hrest : (∃ j ∈ ks, (((net.step P (.deliver k msg order)).node j).handle P order msg).2 = some m) ↔
          ∃ j ∈ ks, ((net.node j).handle P order msg).2 = some m := by
        constructor
        · rintro ⟨j, hj, hm⟩
          rw [hother j fun heq => hk (heq ▸ hj)] at hm
          exact ⟨j, hj, hm⟩
        · rintro ⟨j, hj, hm⟩
          refine ⟨j, hj, ?_⟩
          rw [hother j fun heq => hk (heq ▸ hj)]
          exact hm
      rw [hstep, hrest, List.exists_mem_cons_iff, or_assoc]

theorem EngineNet.InItsRound.elsewhere {k : Fin n} {msg : HotStuffMsg} {order : IterOrder}
    (h : net.InItsRound (.deliver k msg order)) (hk : k ≠ i) (r : HotStuffNode × Option HotStuffMsg) :
    (net.update i r).InItsRound (.deliver k msg order) := by
  have hsent : ∀ {m : HotStuffMsg}, m ∈ net.sent → m ∈ (net.update i r).sent :=
    fun hm => mem_sent_update.mpr (Or.inl hm)
  cases msg with
  | propose block highQc =>
    refine ⟨hsent h.1, ?_⟩
    rw [update_node_of_ne net hk]
    exact h.2
  | vote vote =>
    refine ⟨hsent h.1, ?_⟩
    rw [update_node_of_ne net hk]
    exact h.2
  | newView round qc => exact hsent h
  | timeout round voter => exact hsent h

theorem inItsRound_broadcast {ks : List (Fin n)} (hks : ks.Nodup) {msg : HotStuffMsg} {order : IterOrder}
    (h : ∀ k ∈ ks, net.InItsRound (.deliver k msg order)) :
    AllSteps (EngineNet.step P) EngineNet.InItsRound net (broadcast ks msg order) := by
  induction ks generalizing net with
  | nil => trivial
  | cons k ks ih =>
    obtain ⟨hk, hks⟩ := List.nodup_cons.mp hks
    refine ⟨h k List.mem_cons_self, ih hks fun j hj => ?_⟩
    exact (h j (List.mem_cons_of_mem _ hj)).elsewhere (fun heq : j = k => hk (heq ▸ hj)) _

def voteDeliveries (i : Fin n) (ds : List (Vote × IterOrder)) : List (EngineEvent n) :=
  ds.map fun d => .deliver i (.vote d.1) d.2

theorem Identity.handleVote {nd : HotStuffNode} (h : Identity P keys i nd) (order : IterOrder) (vote : Vote) :
    Identity P keys i (nd.handleVote P order vote).1 ∧ (nd.handleVote P order vote).1.round = nd.round := by
  rcases handleVote_cases P order nd vote with heq | ⟨_, _, heq | ⟨_, heq⟩⟩
  · rw [heq]
    exact ⟨h, rfl⟩
  · rw [heq]
    exact ⟨h.recordVote vote, recordVote_round nd vote⟩
  · rw [heq]
    exact ⟨(h.recordVote vote).closePhase _, (closePhase_signer _ _).1.trans (recordVote_round nd vote)⟩

theorem mem_sent_run {m : HotStuffMsg} {es : List (EngineEvent n)} (h : m ∈ net.sent) :
    m ∈ (run (EngineNet.step P) net es).sent := by
  induction es generalizing net with
  | nil => exact h
  | cons e es ih =>
    rw [run_cons]
    apply ih
    cases e <;> exact mem_sent_update.mpr (Or.inl h)

theorem run_voteDeliveries (ds : List (Vote × IterOrder)) (net : EngineNet n) :
    (run (EngineNet.step P) net (voteDeliveries i ds)).node i = (net.node i).deliver P ds ∧
      ∀ k, k ≠ i → (run (EngineNet.step P) net (voteDeliveries i ds)).node k = net.node k := by
  induction ds generalizing net with
  | nil => exact ⟨rfl, fun _ _ => rfl⟩
  | cons d ds ih =>
    obtain ⟨hself, hother⟩ := ih (net.step P (.deliver i (.vote d.1) d.2))
    constructor
    · refine hself.trans ?_
      rw [show (net.step P (.deliver i (.vote d.1) d.2)).node i = _ from update_node_self net i _]
      rfl
    · intro k hk
      exact (hother k hk).trans (update_node_of_ne net hk _)

theorem inItsRound_voteDeliveries (hkeys : Function.Injective (addr P keys)) {ds : List (Vote × IterOrder)}
    {round : UInt64} (hid : Identity P keys i (net.node i)) (hround : (net.node i).round = round)
    (hlead : round.toNat = i) (hsent : ∀ d ∈ ds, .vote d.1 ∈ net.sent ∧ d.1.round = round) :
    AllSteps (EngineNet.step P) EngineNet.InItsRound net (voteDeliveries i ds) := by
  induction ds generalizing net with
  | nil => trivial
  | cons d ds ih =>
    have hleads : (net.node i).isLeader = true := by
      rw [leads_iff hkeys hid (by rw [hround, hlead]; exact i.isLt), hround, hlead]
    obtain ⟨hd, hdround⟩ := hsent d List.mem_cons_self
    obtain ⟨hnext, hsame⟩ := hid.handleVote d.2 d.1
    have hself : (net.step P (.deliver i (.vote d.1) d.2)).node i = ((net.node i).handleVote P d.2 d.1).1 :=
      update_node_self net i _
    refine ⟨⟨hd, hleads, hdround.trans hround.symm⟩, ih ?_ ?_ ?_⟩
    · rwa [hself]
    · rw [hself, hsame, hround]
    · intro d' hd'
      obtain ⟨hold, hold'⟩ := hsent d' (List.mem_cons_of_mem _ hd')
      exact ⟨mem_sent_update.mpr (Or.inl hold), hold'⟩

theorem newView_of_commit {ds : List (Vote × IterOrder)} (hid : Identity P keys i (net.node i))
    (hgrown : ((net.node i).deliver P ds).committedBlocks ≠ (net.node i).committedBlocks) :
    ∃ qc, .newView ((net.node i).round + 1) qc ∈ (run (EngineNet.step P) net (voteDeliveries i ds)).sent := by
  induction ds generalizing net with
  | nil => exact absurd rfl hgrown
  | cons d ds ih =>
    have hself : (net.step P (.deliver i (.vote d.1) d.2)).node i =
        (net.node i).after P (.handleVote d.1 d.2) :=
      update_node_self net i _
    obtain ⟨hnext, hround⟩ := hid.handleVote d.2 d.1
    by_cases hcommit : (net.node i).Completes P d.1 ∧ (net.node i).phase = .commit
    · have hview : ((net.node i).handleVote P d.2 d.1).2 =
          some (.newView ((net.node i).round + 1)
            (((net.node i).recordVote d.1).formQc d.2 (net.node i).phase)) := by
        rw [handleVote_of_completes hcommit.1, nextView, if_pos hcommit.2]
      have hnow : .newView ((net.node i).round + 1)
          (((net.node i).recordVote d.1).formQc d.2 (net.node i).phase) ∈
          (net.step P (.deliver i (.vote d.1) d.2)).sent := mem_sent_update.mpr (Or.inr hview)
      have hlater : .newView ((net.node i).round + 1)
          (((net.node i).recordVote d.1).formQc d.2 (net.node i).phase) ∈
          (run (EngineNet.step P) (net.step P (.deliver i (.vote d.1) d.2)) (voteDeliveries i ds)).sent :=
            mem_sent_run hnow
      exact ⟨_, hlater⟩
    · have hkept := (committedBlocks_of_open (P := P) (n := net.node i) (c := .handleVote d.1 d.2) (by
        rintro _ _ ⟨⟩
        exact hcommit)).1
      have hrest : ((((net.step P (.deliver i (.vote d.1) d.2))).node i).deliver P ds).committedBlocks ≠
          ((net.step P (.deliver i (.vote d.1) d.2)).node i).committedBlocks := by
        rw [hself, hkept]
        exact hgrown
      obtain ⟨qc, hqc⟩ := ih (by rw [hself]; exact hnext) hrest
      rw [hself, show ((net.node i).after P (.handleVote d.1 d.2)).round =
        (net.node i).round from hround] at hqc
      exact ⟨qc, hqc⟩

end Delivery

section Round

variable (P keys) in
structure StartOf (net : EngineNet n) (r : ℕ) : Prop where
  identity : ∀ k, Identity P keys k (net.node k)
  round : ∀ k, (net.node k).round = UInt64.ofNat r
  phase : ∀ k, (net.node k).phase = .prepare
  votes : ∀ k, (net.node k).allVotes = []
  decided : ∀ k : Fin n, k < r → ∃ block, (net.node k).committedBlocks = [Block.genesis, block] ∧
    CommittedOwn P keys k block
  undecided : ∀ k : Fin n, r ≤ k → (net.node k).committedBlocks = [Block.genesis] ∧
    (net.node k).lockedQc = none
  proposals : ∀ block ∈ net.proposals, block.header.round.toNat < r

def quorumFrom (n r : ℕ) : List (Fin n) := ((List.finRange n).drop r).take (2 * ((n - 1) / 3) + 1)

theorem quorumFrom_nodup (n r : ℕ) : (quorumFrom n r).Nodup :=
  ((List.nodup_finRange n).drop).take

theorem le_of_mem_quorumFrom {r : ℕ} {k : Fin n} (h : k ∈ quorumFrom n r) : r ≤ k := by
  obtain ⟨j, hj, hk⟩ := List.mem_iff_getElem.mp (List.mem_of_mem_take h)
  rw [List.getElem_drop, List.getElem_finRange] at hk
  rw [← hk]
  exact Nat.le_add_right r j

theorem quorumFrom_length {r : ℕ} (h : r < decidingRounds n) :
    (quorumFrom n r).length = 2 * ((n - 1) / 3) + 1 := by
  unfold quorumFrom
  unfold decidingRounds at h
  rw [List.length_take, List.length_drop, List.length_finRange]
  omega

theorem leader_mem_quorumFrom {r : ℕ} (h : r < n) : (⟨r, h⟩ : Fin n) ∈ quorumFrom n r := by
  have hdrop : (List.finRange n).drop r = ⟨r, h⟩ :: (List.finRange n).drop (r + 1) := by
    rw [List.drop_eq_getElem_cons (by simpa using h), List.getElem_finRange]
    rfl
  unfold quorumFrom
  rw [hdrop, List.take_succ_cons]
  exact List.mem_cons_self

theorem firstQuorum_of_nodup {V : Type} [DecidableEq V] {as : List V} {q : ℕ} (hnodup : as.Nodup)
    (hlen : as.length = q) :
    FirstQuorum q as := by
  refine ⟨?_, ?_⟩
  · rw [List.toFinset_card_of_nodup hnodup, hlen]
  · intro p hp hne
    have hshort : p.length < as.length := Nat.lt_of_le_of_ne hp.length_le fun heq => hne (hp.eq_of_length heq)
    exact Nat.lt_of_le_of_lt p.toFinset_card_le (hlen ▸ hshort)

theorem handle_proposal (nd : HotStuffNode) (msg : HotStuffMsg) (order : IterOrder) :
    (nd.handle P order msg).2.bind HotStuffMsg.proposal = none := by
  cases msg with
  | propose block highQc =>
    change (nd.handlePropose P block highQc).2.bind _ = none
    unfold handlePropose
    split <;> rfl
  | vote vote =>
    change (nd.handleVote P order vote).2.bind _ = none
    rcases handleVote_cases P order nd vote with heq | ⟨_, _, heq | ⟨_, heq⟩⟩ <;> rw [heq] <;> rfl
  | newView round qc =>
    change (nd.handleNewView P round qc).2.bind _ = none
    rcases handleNewView_cases P nd round qc with ⟨_, heq⟩ | ⟨_, _, heq⟩ | ⟨_, _, _, heq⟩ <;> rw [heq] <;> rfl
  | timeout round voter => rfl

theorem proposals_run {net : EngineNet n} {es : List (EngineEvent n)}
    (hes : ∀ e ∈ es, ∃ k msg order, e = .deliver k msg order) :
    (run (EngineNet.step P) net es).proposals = net.proposals := by
  induction es generalizing net with
  | nil => rfl
  | cons e es ih =>
    obtain ⟨k, msg, order, rfl⟩ := hes e List.mem_cons_self
    rw [run_cons, ih fun e he => hes e (List.mem_cons_of_mem _ he)]
    exact proposals_update (handle_proposal (net.node k) msg order)

variable {net net' : EngineNet n} {r : ℕ} {i : Fin n} {block : Block}

variable (P keys) in
structure OpenRound (net : EngineNet n) (r : ℕ) (block : Block) : Prop where
  identity : ∀ k, Identity P keys k (net.node k)
  round : ∀ k, (net.node k).round = UInt64.ofNat r
  leader : ∀ k : Fin n, (k : ℕ) = r → (net.node k).phase = .prepare ∧ (net.node k).allVotes = [] ∧
    (net.node k).pendingBlock = some block ∧ CommittedOwn P keys k block
  decided : ∀ k : Fin n, k < r → ∃ block, (net.node k).committedBlocks = [Block.genesis, block] ∧
    CommittedOwn P keys k block
  undecided : ∀ k : Fin n, r ≤ k → (net.node k).committedBlocks = [Block.genesis] ∧
    (net.node k).lockedQc = none
  votes : ∀ k ∈ quorumFrom n r, .vote (Vote.sign P (block.hash P) (UInt64.ofNat r) (keys k)) ∈ net.sent
  proposals : ∀ block ∈ net.proposals, block.header.round.toNat ≤ r

theorem StartOf.leads (h : StartOf P keys net r) (hkeys : Function.Injective (addr P keys))
    (hmax : n ≤ 2 ^ 64) (hi : (i : ℕ) = r) : (net.node i).isLeader = true ∧ (net.node i).round.toNat = i := by
  have hround : (net.node i).round.toNat = i := by
    rw [h.round i, hi]
    exact UInt64.toNat_ofNat_of_lt' (by rw [← hi]; exact Nat.lt_of_lt_of_le i.isLt hmax)
  exact ⟨(leads_iff hkeys (h.identity i) (by rw [hround]; exact i.isLt)).mpr hround, hround⟩

theorem handlePropose_unlocked {nd : HotStuffNode} (h : nd.lockedQc = none) (block : Block)
    (highQc : Option QuorumCert) :
    nd.handlePropose P block highQc =
      ({ nd with pendingBlock := some block },
        some (.vote (Vote.sign P (block.hash P) nd.round nd.signingKey))) := by
  have hextends : nd.extendsLock block = true := by
    unfold extendsLock
    rw [h]
  exact if_pos hextends

variable (P keys) in
structure OnlyPending (i : Fin n) (nd₀ nd : HotStuffNode) : Prop where
  identity : Identity P keys i nd
  round : nd.round = nd₀.round
  committed : nd.committedBlocks = nd₀.committedBlocks
  locked : nd.lockedQc = nd₀.lockedQc
  phase : nd.phase = .prepare
  votes : nd.allVotes = []

theorem OnlyPending.pend {nd₀ nd : HotStuffNode} (h : OnlyPending P keys i nd₀ nd) (block : Block) :
    OnlyPending P keys i nd₀ { nd with pendingBlock := some block } :=
  ⟨⟨h.identity.address, h.identity.signingKey, h.identity.config⟩, h.round, h.committed, h.locked, h.phase,
    h.votes⟩

theorem StartOf.propose (h : StartOf P keys net r) (hkeys : Function.Injective (addr P keys))
    (hmax : n ≤ 2 ^ 64) (hi : (i : ℕ) = r) :
    ∃ block, CommittedOwn P keys i block ∧ net.InItsRound (.propose i 0 []) ∧
      (∀ k, OnlyPending P keys k (net.node k) ((net.step P (.propose i 0 [])).node k)) ∧
      (∃ highQc, .propose block highQc ∈ (net.step P (.propose i 0 [])).sent) ∧
      (net.step P (.propose i 0 [])).proposals = net.proposals ++ [block] := by
  obtain ⟨hlead, hown⟩ := h.leads hkeys hmax hi
  obtain ⟨hgenesis, _⟩ := h.undecided i (Nat.le_of_eq hi.symm)
  have hpropose : (net.node i).propose P 0 [] =
      ({ net.node i with pendingBlock := some ((net.node i).proposal P 0 []), phase := .prepare },
        some (.propose ((net.node i).proposal P 0 []) (net.node i).highQc)) := if_pos hlead
  have hnet : net.step P (.propose i 0 []) = net.update i _ := congrArg (net.update i) hpropose
  have hkeep : ∀ k, OnlyPending P keys k (net.node k) (net.node k) := fun k =>
    ⟨h.identity k, rfl, rfl, rfl, h.phase k, h.votes k⟩
  refine ⟨(net.node i).proposal P 0 [], proposal_committedOwn hgenesis (h.identity i) hown 0 [], ⟨hlead, ?_⟩,
    ?_, ⟨(net.node i).highQc, ?_⟩, ?_⟩
  · intro block hblock heq
    have hearlier := h.proposals block hblock
    rw [heq, hown, hi] at hearlier
    exact absurd hearlier (Nat.lt_irrefl r)
  · rw [hnet]
    apply forall_update_node (fun k nd => OnlyPending P keys k (net.node k) nd)
    · exact ⟨⟨(h.identity i).address, (h.identity i).signingKey, (h.identity i).config⟩, rfl, rfl, rfl, rfl,
        h.votes i⟩
    · exact fun k _ => hkeep k
  · rw [hnet]
    exact mem_sent_update.mpr (Or.inr rfl)
  · rw [hnet]
    change (net.sent ++ _).filterMap HotStuffMsg.proposal = _
    rw [List.filterMap_append]
    rfl

theorem header_round {k : Fin n} (hmax : n ≤ 2 ^ 64) (h : CommittedOwn P keys k block) :
    block.header.round = UInt64.ofNat k := by
  apply UInt64.toNat_inj.mp
  rw [h.round, UInt64.toNat_ofNat_of_lt' (Nat.lt_of_lt_of_le k.isLt hmax)]

theorem StartOf.answer (h : StartOf P keys net r) (hmax : n ≤ 2 ^ 64) (hr : r < n)
    (hkept : ∀ k, OnlyPending P keys k (net.node k) (net'.node k))
    (hblock : CommittedOwn P keys ⟨r, hr⟩ block) {highQc : Option QuorumCert}
    (hsent : .propose block highQc ∈ net'.sent) (hproposals : net'.proposals = net.proposals ++ [block]) :
    AllSteps (EngineNet.step P) EngineNet.InItsRound net'
      (broadcast (quorumFrom n r) (.propose block highQc) .insertion) ∧
      OpenRound P keys
        (run (EngineNet.step P) net' (broadcast (quorumFrom n r) (.propose block highQc) .insertion)) r
        block := by
  have hround := header_round hmax hblock
  have hdelivered :=
    delivered_broadcast (P := P) (quorumFrom_nodup n r) (.propose block highQc) .insertion net'
  have hanswer : ∀ k : Fin n, r ≤ k → (net'.node k).handle P .insertion (.propose block highQc) =
      ({ net'.node k with pendingBlock := some block },
        some (.vote (Vote.sign P (block.hash P) (UInt64.ofNat r) (keys k)))) := by
    intro k hk
    have hunlocked : (net'.node k).lockedQc = none := (hkept k).locked.trans (h.undecided k hk).2
    have hvote : Vote.sign P (block.hash P) (UInt64.ofNat r) (keys k) =
        Vote.sign P (block.hash P) (net'.node k).round (net'.node k).signingKey := by
      rw [(hkept k).round, h.round, (hkept k).identity.signingKey]
    rw [hvote]
    exact handlePropose_unlocked hunlocked block highQc
  have hnode : ∀ k, OnlyPending P keys k (net.node k) ((run (EngineNet.step P) net'
      (broadcast (quorumFrom n r) (.propose block highQc) .insertion)).node k) := by
    intro k
    by_cases hk : k ∈ quorumFrom n r
    · rw [hdelivered.received k hk, hanswer k (le_of_mem_quorumFrom hk)]
      exact (hkept k).pend block
    · rw [hdelivered.others k hk]
      exact hkept k
  refine ⟨inItsRound_broadcast (quorumFrom_nodup n r) fun k _ => ⟨hsent, ?_⟩, fun k => (hnode k).identity,
    fun k => (hnode k).round.trans (h.round k), ?_, ?_, ?_, ?_, ?_⟩
  · rw [hround, (hkept k).round, h.round]
  · intro k hk
    obtain rfl : k = ⟨r, hr⟩ := Fin.ext hk
    refine ⟨(hnode _).phase, (hnode _).votes, ?_, hblock⟩
    rw [hdelivered.received _ (leader_mem_quorumFrom hr), hanswer _ (Nat.le_refl r)]
  · intro k hk
    rw [(hnode k).committed]
    exact h.decided k hk
  · intro k hk
    rw [(hnode k).committed, (hnode k).locked]
    exact h.undecided k hk
  · intro k hk
    refine (hdelivered.sent _).mpr (Or.inr ⟨k, hk, ?_⟩)
    rw [hanswer k (le_of_mem_quorumFrom hk)]
  · rw [proposals_run fun e he => ?_, hproposals]
    · intro b hb
      rcases List.mem_append.mp hb with hold | hnew
      · exact Nat.le_of_lt (h.proposals b hold)
      · rw [List.mem_singleton.mp hnew, hblock.round]
    · obtain ⟨k, _, rfl⟩ := List.mem_map.mp he
      exact ⟨k, _, _, rfl⟩

theorem StartOf.openRound (h : StartOf P keys net r) (hkeys : Function.Injective (addr P keys))
    (hmax : n ≤ 2 ^ 64) (hr : r < n) : ∃ es block, AllSteps (EngineNet.step P) EngineNet.InItsRound net es ∧
      OpenRound P keys (run (EngineNet.step P) net es) r block := by
  obtain ⟨block, hblock, hallowed, hkept, ⟨highQc, hsent⟩, hproposals⟩ :=
    h.propose hkeys hmax (i := ⟨r, hr⟩) rfl
  obtain ⟨hsteps, hopen⟩ := h.answer hmax hr hkept hblock hsent hproposals
  exact ⟨.propose ⟨r, hr⟩ 0 [] :: broadcast (quorumFrom n r) (.propose block highQc) .insertion, block,
    ⟨hallowed, hsteps⟩, hopen⟩

theorem Identity.deliver {nd : HotStuffNode} (h : Identity P keys i nd) (ds : List (Vote × IterOrder)) :
    Identity P keys i (nd.deliver P ds) ∧ (nd.deliver P ds).round = nd.round := by
  induction ds generalizing nd with
  | nil => exact ⟨h, rfl⟩
  | cons d ds ih =>
    obtain ⟨hnext, hround⟩ := h.handleVote d.2 d.1
    obtain ⟨hrest, hsame⟩ := ih hnext
    exact ⟨hrest, hsame.trans hround⟩

def quorumVotes (P : Primitives) (keys : Fin n → SigningKey) (r : ℕ) (block : Block) : List Vote :=
  (quorumFrom n r).map fun k => Vote.sign P (block.hash P) (UInt64.ofNat r) (keys k)

theorem quorumVotes_first (hkeys : Function.Injective (addr P keys)) (hr : r < decidingRounds n)
    (block : Block) :
    FirstQuorum (ConsensusConfig.new (keyValidators P keys)).quorumSize
      ((quorumVotes P keys r block).map Vote.voter) := by
  have hvoters : (quorumVotes P keys r block).map Vote.voter = (quorumFrom n r).map (addr P keys) := by
    unfold quorumVotes
    rw [List.map_map]
    rfl
  rw [hvoters]
  apply firstQuorum_of_nodup
  · exact (quorumFrom_nodup n r).map hkeys
  · rw [List.length_map, quorumFrom_length hr]
    simp [keyValidators]

/-- The votes for one proposal are the same in all phases, so each vote can be delivered for each phase. -/
def threePhases (P : Primitives) (keys : Fin n → SigningKey) (r : ℕ) (block : Block) :
    List (Vote × IterOrder) :=
  (quorumVotes P keys r block ++ quorumVotes P keys r block ++ quorumVotes P keys r block).map
    fun v => (v, .insertion)

theorem mem_threePhases {d : Vote × IterOrder} (h : d ∈ threePhases P keys r block) :
    ∃ k ∈ quorumFrom n r, d.1 = Vote.sign P (block.hash P) (UInt64.ofNat r) (keys k) := by
  obtain ⟨v, hv, rfl⟩ := List.mem_map.mp h
  have hvote : v ∈ quorumVotes P keys r block := by simpa using hv
  obtain ⟨k, hk, rfl⟩ := List.mem_map.mp hvote
  exact ⟨k, hk, rfl⟩

theorem OpenRound.decides (hP : P.SignVerifies) (hkeys : Function.Injective (addr P keys))
    (h : OpenRound P keys net r block) (hr : r < decidingRounds n) (hi : (i : ℕ) = r) :
    ∃ qc, ((net.node i).deliver P (threePhases P keys r block)).committedBlocks =
      [Block.genesis, { block with qc := some qc }] := by
  obtain ⟨hphase, hempty, hpending, _⟩ := h.leader i hi
  obtain ⟨hgenesis, _⟩ := h.undecided i (Nat.le_of_eq hi.symm)
  have hquorum : (net.node i).config.quorumSize = (ConsensusConfig.new (keyValidators P keys)).quorumSize :=
    congrArg ConsensusConfig.quorumSize (h.identity i).config
  obtain ⟨segments, rest, hcut, hcounted⟩ :=
    counted_run (P := P) hphase hempty hpending (threePhases P keys r block)
    (by
      intro d hd
      obtain ⟨k, _, hvote⟩ := mem_threePhases hd
      rw [hvote]
      exact Vote.verify_sign P hP _ _ _)
    (by
      intro d hd
      obtain ⟨k, _, hvote⟩ := mem_threePhases hd
      rw [hvote]
      rfl)
  have hsplits : Splits (net.node i).config.quorumSize ((threePhases P keys r block).map (·.1))
      (quorumVotes P keys r block) (quorumVotes P keys r block) (quorumVotes P keys r block) [] := by
    have hmap : (threePhases P keys r block).map (·.1) =
        quorumVotes P keys r block ++ quorumVotes P keys r block ++ quorumVotes P keys r block := by
      unfold threePhases
      rw [List.map_map]
      exact List.map_id _
    constructor
    · rw [hmap, List.append_nil]
    · intro s hs
      obtain rfl : s = quorumVotes P keys r block := by simpa using hs
      rw [hquorum]
      exact quorumVotes_first hkeys hr block
  obtain ⟨qc, hgrown⟩ := (hcounted.commitRule hcut).commits.mpr ⟨_, _, _, _, hsplits⟩
  rw [hgenesis] at hgrown
  exact ⟨qc, hgrown⟩

variable (P keys) in
structure ClosedRound (net : EngineNet n) (r : ℕ) : Prop where
  identity : ∀ k, Identity P keys k (net.node k)
  round : ∀ k, (net.node k).round = UInt64.ofNat r
  decided : ∀ k : Fin n, k < r + 1 →
    ∃ block, (net.node k).committedBlocks = [Block.genesis, block] ∧ CommittedOwn P keys k block
  undecided : ∀ k : Fin n, r + 1 ≤ k → (net.node k).committedBlocks = [Block.genesis] ∧
    (net.node k).lockedQc = none
  view : ∃ qc, .newView (UInt64.ofNat r + 1) qc ∈ net.sent
  proposals : ∀ block ∈ net.proposals, block.header.round.toNat ≤ r

theorem OpenRound.close (hP : P.SignVerifies) (hkeys : Function.Injective (addr P keys)) (hmax : n ≤ 2 ^ 64)
    (h : OpenRound P keys net r block) (hr : r < decidingRounds n) (hi : (i : ℕ) = r) :
    AllSteps (EngineNet.step P) EngineNet.InItsRound net (voteDeliveries i (threePhases P keys r block)) ∧
      ClosedRound P keys (run (EngineNet.step P) net (voteDeliveries i (threePhases P keys r block))) r := by
  obtain ⟨hself, hother⟩ := run_voteDeliveries (P := P) (i := i) (threePhases P keys r block) net
  obtain ⟨qc, hgrown⟩ := h.decides hP hkeys hr hi
  obtain ⟨_, _, _, hblock⟩ := h.leader i hi
  obtain ⟨hgenesis, _⟩ := h.undecided i (Nat.le_of_eq hi.symm)
  obtain ⟨hidentity, hround⟩ := (h.identity i).deliver (threePhases P keys r block)
  have hrounds : (UInt64.ofNat r).toNat = i := by
    rw [hi]
    exact UInt64.toNat_ofNat_of_lt' (by rw [← hi]; exact Nat.lt_of_lt_of_le i.isLt hmax)
  refine ⟨inItsRound_voteDeliveries hkeys (h.identity i) (h.round i) hrounds ?_, ?_, ?_, ?_, ?_, ?_, ?_⟩
  · intro d hd
    obtain ⟨k, hk, hvote⟩ := mem_threePhases hd
    rw [hvote]
    exact ⟨h.votes k hk, rfl⟩
  · intro k
    by_cases hk : k = i
    · rw [hk, hself]
      exact hidentity
    · rw [hother k hk]
      exact h.identity k
  · intro k
    by_cases hk : k = i
    · rw [hk, hself, hround]
      exact h.round i
    · rw [hother k hk]
      exact h.round k
  · intro k hlt
    by_cases hk : k = i
    · rw [hk, hself]
      exact ⟨_, hgrown, ⟨hblock.height, hblock.parentHash⟩, hblock.round, hblock.proposer⟩
    · rw [hother k hk]
      have hne : (k : ℕ) ≠ r := fun heq => hk (Fin.ext (heq.trans hi.symm))
      exact h.decided k (by omega)
  · intro k hle
    rw [hother k fun heq => by rw [heq] at hle; omega]
    exact h.undecided k (by omega)
  · have hlonger : ((net.node i).deliver P (threePhases P keys r block)).committedBlocks ≠
        (net.node i).committedBlocks := by
      rw [hgrown, hgenesis]
      simp
    have hview := newView_of_commit (h.identity i) hlonger
    rwa [h.round i] at hview
  · rw [proposals_run fun e he => ?_]
    · exact h.proposals
    · obtain ⟨d, _, rfl⟩ := List.mem_map.mp he
      exact ⟨i, _, _, rfl⟩

theorem adoptQc_frame {nd : HotStuffNode} (h : Identity P keys i nd) (qc : QuorumCert) (round : UInt64) :
    Identity P keys i ((nd.adoptQc qc).advanceRound round) ∧
      ((nd.adoptQc qc).advanceRound round).committedBlocks = nd.committedBlocks ∧
      ((nd.adoptQc qc).advanceRound round).lockedQc = nd.lockedQc := by
  have hid := h.adoptQc qc
  exact ⟨⟨hid.address, hid.signingKey, hid.config⟩, adoptQc_committedBlocks nd qc, adoptQc_lockedQc nd qc⟩

theorem ClosedRound.next (h : ClosedRound P keys net r) (hlt : r + 1 < 2 ^ 64) :
    ∃ es, AllSteps (EngineNet.step P) EngineNet.InItsRound net es ∧
      StartOf P keys (run (EngineNet.step P) net es) (r + 1) := by
  obtain ⟨qc, hview⟩ := h.view
  have hnext : UInt64.ofNat r + 1 = UInt64.ofNat (r + 1) := by
    rw [UInt64.ofNat_add]
    rfl
  have hrise : UInt64.ofNat r < UInt64.ofNat r + 1 := by
    rw [hnext, UInt64.lt_iff_toNat_lt, UInt64.toNat_ofNat_of_lt' (Nat.lt_of_succ_lt hlt),
      UInt64.toNat_ofNat_of_lt' hlt]
    exact Nat.lt_succ_self r
  have hdelivered :=
    delivered_broadcast (P := P) (List.nodup_finRange n) (.newView (UInt64.ofNat r + 1) qc) .insertion net
  have hnode : ∀ k,
      (run (EngineNet.step P) net
        (broadcast (List.finRange n) (.newView (UInt64.ofNat r + 1) qc) .insertion)).node k =
      ((net.node k).adoptQc qc).advanceRound (UInt64.ofNat (r + 1)) := by
    intro k
    rw [hdelivered.received k (List.mem_finRange k)]
    rcases handleNewView_cases P (net.node k) (UInt64.ofNat r + 1) qc with ⟨_, heq⟩ | ⟨hnot, _⟩ | ⟨hnot, _⟩
    · rw [← hnext]
      exact congrArg Prod.fst heq
    · exact absurd (h.round k ▸ hrise) hnot
    · exact absurd (h.round k ▸ hrise) hnot
  refine ⟨broadcast (List.finRange n) (.newView (UInt64.ofNat r + 1) qc) .insertion,
    inItsRound_broadcast (List.nodup_finRange n) fun _ _ => hview, ?_, ?_, ?_, ?_, ?_, ?_, ?_⟩
  · intro k
    rw [hnode k]
    exact (adoptQc_frame (h.identity k) qc _).1
  · intro k
    rw [hnode k]
    rfl
  · intro k
    rw [hnode k]
    rfl
  · intro k
    rw [hnode k]
    rfl
  · intro k hk
    rw [hnode k, (adoptQc_frame (h.identity k) qc _).2.1]
    exact h.decided k hk
  · intro k hk
    rw [hnode k, (adoptQc_frame (h.identity k) qc _).2.1, (adoptQc_frame (h.identity k) qc _).2.2]
    exact h.undecided k hk
  · rw [proposals_run fun e he => ?_]
    · exact fun block hblock => Nat.lt_succ_of_le (h.proposals block hblock)
    · obtain ⟨k, _, rfl⟩ := List.mem_map.mp he
      exact ⟨k, _, _, rfl⟩

theorem StartOf.next (hP : P.SignVerifies) (hn : 4 ≤ n) (hmax : n ≤ 2 ^ 64)
    (hkeys : Function.Injective (addr P keys)) (h : StartOf P keys net r) (hr : r < decidingRounds n) :
    ∃ es, AllSteps (EngineNet.step P) EngineNet.InItsRound net es ∧
      StartOf P keys (run (EngineNet.step P) net es) (r + 1) := by
  have hrn : r < n := hr.trans (decidingRounds_lt hn)
  obtain ⟨opening, block, hopening, hopen⟩ := h.openRound hkeys hmax hrn
  obtain ⟨hvoting, hclosed⟩ := hopen.close (i := ⟨r, hrn⟩) hP hkeys hmax hr rfl
  obtain ⟨entering, hentering, hstart⟩ := hclosed.next (by have := decidingRounds_lt hn; omega)
  refine ⟨opening ++ (voteDeliveries ⟨r, hrn⟩ (threePhases P keys r block) ++ entering), ?_, ?_⟩
  · exact allSteps_append.mpr ⟨hopening, allSteps_append.mpr ⟨hvoting, hentering⟩⟩
  · rw [run_append, run_append]
    exact hstart

theorem init_startOf : StartOf P keys (EngineNet.init P keys) 0 :=
  ⟨fun _ => ⟨rfl, rfl, rfl⟩, fun _ => rfl, fun _ => rfl, fun _ => rfl,
    fun k hk => absurd hk (Nat.not_lt_zero k),
    fun _ _ => ⟨rfl, rfl⟩, fun _ hblock => absurd hblock List.not_mem_nil⟩

theorem startOf_reachable (hP : P.SignVerifies) (hn : 4 ≤ n) (hmax : n ≤ 2 ^ 64)
    (hkeys : Function.Injective (addr P keys)) (hr : r ≤ decidingRounds n) :
    ∃ es, AllSteps (EngineNet.step P) EngineNet.InItsRound (EngineNet.init P keys) es ∧
      StartOf P keys (run (EngineNet.step P) (EngineNet.init P keys) es) r := by
  induction r with
  | zero => exact ⟨[], trivial, init_startOf⟩
  | succ r ih =>
    obtain ⟨es, hes, hstart⟩ := ih (by omega)
    obtain ⟨more, hmore, hnext⟩ := hstart.next hP hn hmax hkeys hr
    exact ⟨es ++ more, allSteps_append.mpr ⟨hes, hmore⟩, by rwa [run_append]⟩

end Round

theorem deciding_rounds_decide (P : Primitives) (hP : P.SignVerifies) (hn : 4 ≤ n) (hmax : n ≤ 2 ^ 64)
    (keys : Fin n → SigningKey) (hkeys : Function.Injective (addr P keys)) :
    ∃ es, AllSteps (EngineNet.step P) EngineNet.InItsRound (EngineNet.init P keys) es ∧
      ∀ i : Fin n, i < decidingRounds n →
        ∃ block, ((run (EngineNet.step P) (EngineNet.init P keys) es).node i).committedBlocks =
          [Block.genesis, block] ∧
          CommittedOwn P keys i block := by
  obtain ⟨es, hes, hstart⟩ := startOf_reachable hP hn hmax hkeys (Nat.le_refl (decidingRounds n))
  exact ⟨es, hes, hstart.decided⟩

theorem deciding_rounds_decide_four :
    ∃ es, AllSteps (EngineNet.step .sample) EngineNet.InItsRound (EngineNet.init .sample fourKeys) es ∧
      ∀ i : Fin 4, i < decidingRounds 4 →
        ∃ block, ((run (EngineNet.step .sample) (EngineNet.init .sample fourKeys) es).node
          i).committedBlocks =
          [Block.genesis, block] ∧ CommittedOwn .sample fourKeys i block :=
  deciding_rounds_decide .sample sample_signVerifies (by decide) (by decide) fourKeys (by decide +kernel)

end VelaNetwork
