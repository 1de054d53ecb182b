import VelaNetwork.InTurn
import VelaNetwork.Library.Flows
import VelaNetwork.SyncRequests

namespace VelaNetwork.Overlay

open Library.Flows
open Library.Gossip
open Library.Runs

variable (P : Primitives) (W : Wire)

/-- What the nodes take part in: their own steps and the messages they handle. Between these the network is at
work. -/
def clusterSteps (s : Overlay (Fin 3)) : Move (Fin 3) → List (Fin 3 × Event)
  | .event i e => if e.isLocal then [(i, e)] else []
  | .handle j order saves =>
    match s.next W j with
    | none => []
    | some (_, msg) => [(j, .message msg order saves)]
  | .restart i saved => [(i, .restart saved)]
  | _ => []

structure Shows (s : Overlay (Fin 3)) (c : Cluster) : Prop where
  node : s.node = c.node
  sent : s.net.sent.map (·.2.msg) = c.sent

structure Refines (s : Overlay (Fin 3)) (c : Cluster) : Prop extends Shows s c where
  genuine : s.net.Genuine
  accounted : s.net.Accounted

variable {P W} {s : Overlay (Fin 3)} {c : Cluster}

theorem start_refines : (start (Node.fresh P)).Refines (Cluster.init P) where
  node := rfl
  sent := rfl
  genuine := Net.idle_genuine
  accounted := Net.idle_accounted

theorem next_sent (hwire : W.RoundTrips) (h : s.Refines c) {j : Fin 3} {k : ℕ} {msg : NetworkMessage}
    (hnext : s.next W j = some (k, msg)) : msg ∈ c.sent := by
  have hhead := head_of_next hnext
  have hk := h.accounted.waiting j k (List.mem_of_head? hhead)
  have hpost := List.getElem?_eq_getElem hk
  have hdecoded := (next_of_head hwire hhead hpost).symm.trans hnext
  obtain ⟨_, hmsg⟩ := Prod.mk.inj (Option.some.inj hdecoded)
  rw [← h.sent, ← hmsg]
  exact List.mem_map_of_mem (f := fun p : Fin 3 × Letter => p.2.msg) (h.genuine.posts _ (List.getElem_mem hk))

theorem sent_letters (i : Fin 3) (request : Option ℕ) (messages : List NetworkMessage) :
    ((messages.map fun msg => (⟨msg, request⟩ : Letter)).map fun letter => (i, letter)).map (·.2.msg) =
      messages := by
  rw [List.map_map, List.map_map]
  exact List.map_id _

theorem shows_of_idle {mv : Move (Fin 3)} (h : Shows s c) (hnode : (s.step P W mv).node = s.node)
    (hsent : (s.step P W mv).net.sent = s.net.sent) : Shows (s.step P W mv) c :=
  ⟨hnode.trans h.node, hsent ▸ h.sent⟩

theorem shows_event {i : Fin 3} {e : Event} (h : Shows s c) (he : e.isLocal = true) :
    Shows (s.step P W (.event i e)) (c.step P (i, e)) := by
  unfold step
  dsimp only
  rw [if_pos he]
  constructor
  · change Function.update s.node i ((s.node i).step P e) = Function.update c.node i ((c.node i).step P e)
    rw [h.node]
  · change (s.net.sent ++ _).map (·.2.msg) = c.sent ++ (c.node i).sends P e
    rw [List.map_append, sent_letters, h.sent, h.node]

theorem shows_handle {j : Fin 3} {k : ℕ} {msg : NetworkMessage} (h : Shows s c)
    (hnext : s.next W j = some (k, msg)) (order : IterOrder) (saves : ℕ → Bool) :
    Shows (s.step P W (.handle j order saves)) (c.step P (j, .message msg order saves)) := by
  constructor
  · rw [handle_node hnext, h.node]
    rfl
  · change _ = c.sent ++ (c.node j).sends P (.message msg order saves)
    rw [handle_net hnext, Net.handle_sent (head_of_next hnext), List.map_append, sent_letters, h.sent, h.node]

theorem shows_unhandled {j : Fin 3} (h : Shows s c) (hnext : s.next W j = none) (order : IterOrder)
    (saves : ℕ → Bool) :
    Shows (s.step P W (.handle j order saves)) c := by
  have hstep : s.step P W (.handle j order saves) = { s with net := s.net.handle j [] } := by
    unfold step
    dsimp only
    rw [hnext]
  rw [hstep]
  refine ⟨h.node, Eq.trans ?_ h.sent⟩
  cases hhead : (s.net.inbox j).head? with
  | none =>
    obtain ⟨hsame, _⟩ | ⟨k, rest, hinbox, _⟩ := s.net.handle_cases j []
    · rw [hsame]
    · rw [hinbox] at hhead
      cases hhead
  | some k =>
    change (s.net.handle j []).sent.map _ = _
    rw [Net.handle_sent hhead, List.map_nil, List.append_nil]

theorem shows_restart {i : Fin 3} (h : Shows s c) (saved : Bool) :
    Shows (s.step P W (.restart i saved)) (c.step P (i, .restart saved)) := by
  constructor
  · change Function.update s.node i ((s.node i).step P (.restart saved)) =
      Function.update c.node i ((c.node i).step P (.restart saved))
    rw [h.node]
  · change s.net.sent.map (·.2.msg) = c.sent ++ (c.node i).sends P (.restart saved)
    rw [h.sent]
    exact (List.append_nil _).symm

theorem Refines.shows_step (hwire : W.RoundTrips) (h : s.Refines c) (mv : Move (Fin 3)) :
    AllSteps (Cluster.step P) Cluster.Gossiped c (s.clusterSteps W mv) ∧
      Shows (s.step P W mv) (run (Cluster.step P) c (s.clusterSteps W mv)) := by
  unfold clusterSteps
  cases mv with
  | event i e =>
    dsimp only
    split
    · rename_i he
      refine ⟨⟨?_, trivial⟩, shows_event h.toShows he⟩
      cases e with
      | message msg order saves => cases he
      | _ => trivial
    · rename_i he
      refine ⟨trivial, ?_⟩
      unfold step
      dsimp only
      rw [if_neg he]
      exact h.toShows
  | publish i peers => exact ⟨trivial, shows_of_idle h.toShows rfl (s.net.publish_frame i peers).1⟩
  | arrive k j => exact ⟨trivial, shows_of_idle h.toShows rfl (s.net.arrive_frame k j).1⟩
  | handle j order saves =>
    dsimp only
    cases hnext : s.next W j with
    | none => exact ⟨trivial, shows_unhandled h.toShows hnext order saves⟩
    | some p => exact ⟨⟨next_sent hwire h hnext, trivial⟩, shows_handle h.toShows hnext order saves⟩
  | expire i keep => exact ⟨trivial, shows_of_idle h.toShows rfl rfl⟩
  | restart i saved => exact ⟨⟨trivial, trivial⟩, shows_restart h.toShows saved⟩

theorem Refines.step (hwire : W.RoundTrips) (h : s.Refines c) (mv : Move (Fin 3)) :
    AllSteps (Cluster.step P) Cluster.Gossiped c (s.clusterSteps W mv) ∧
      (s.step P W mv).Refines (run (Cluster.step P) c (s.clusterSteps W mv)) := by
  obtain ⟨hgossiped, hshows⟩ := h.shows_step hwire mv
  refine ⟨hgossiped, hshows, ?_, ?_⟩
  · rw [step_net]
    exact h.genuine.step _
  · rw [step_net]
    exact h.accounted.step _

theorem overlay_refines_cluster (P : Primitives) {W : Wire} (hwire : W.RoundTrips)
    (moves : List (Move (Fin 3))) :
    AllSteps (Cluster.step P) Cluster.Gossiped (Cluster.init P)
        (collect (step P W) (clusterSteps W) (start (Node.fresh P)) moves) ∧
      Shows (run (step P W) (start (Node.fresh P)) moves)
        (run (Cluster.step P) (Cluster.init P)
          (collect (step P W) (clusterSteps W) (start (Node.fresh P)) moves)) := by
  obtain ⟨hgossiped, hrefines⟩ := refines_run (fun _ _ mv h => h.step hwire mv) (start_refines (P := P)) moves
  exact ⟨hgossiped, hrefines.toShows⟩

theorem overlay_refines_cluster_oneRequest :
    AllSteps (Cluster.step .sample) Cluster.Gossiped (Cluster.init .sample)
      (collect (step .sample .sample) (clusterSteps .sample) threeNodes oneRequest) ∧
    Shows (run (step .sample .sample) threeNodes oneRequest)
      (run (Cluster.step .sample) (Cluster.init .sample)
      (collect (step .sample .sample) (clusterSteps .sample) threeNodes oneRequest)) :=
  overlay_refines_cluster .sample sample_wireRoundTrips oneRequest

variable (P W) in
structure InTurn (s : Overlay (Fin 3)) (mv : Move (Fin 3)) : Prop where
  saves : ∀ x ∈ s.clusterSteps W mv, x.2.savesOk
  room : ∀ x ∈ s.clusterSteps W mv, ((s.node x.1).state.blocks ++ (s.node x.1).appended P x.2).length ≤ 2 ^ 64
  waits : ∀ x ∈ s.clusterSteps W mv, ∀ block ∈ (s.node x.1).produced P x.2,
    block.header.round.toNat ≤ (s.node x.1).state.blocks.length
  counts : ∀ x ∈ s.clusterSteps W mv, ∀ round ∈ ((s.node x.1).step P x.2).round, round ≠ 0

theorem clusterSteps_single (s : Overlay (Fin 3)) (mv : Move (Fin 3)) :
    s.clusterSteps W mv = [] ∨ ∃ x, s.clusterSteps W mv = [x] := by
  unfold clusterSteps
  cases mv with
  | event i e =>
    dsimp only
    split
    · exact Or.inr ⟨_, rfl⟩
    · exact Or.inl rfl
  | handle j order saves =>
    dsimp only
    split
    · exact Or.inl rfl
    · exact Or.inr ⟨_, rfl⟩
  | restart i saved => exact Or.inr ⟨_, rfl⟩
  | _ => exact Or.inl rfl

theorem InTurn.recorded {mv : Move (Fin 3)} {x : Fin 3 × Event} (h : s.InTurn P W mv) (hshows : Shows s c)
    (hx : x ∈ s.clusterSteps W mv) : Cluster.Recorded P c x ∧ c.TakesItsTurn P x := by
  have hnode := congrFun hshows.node x.1
  refine ⟨⟨h.saves x hx, ?_⟩, ?_, ?_⟩
  · rw [← hnode]
    exact h.room x hx
  · rw [← hnode]
    exact h.waits x hx
  · rw [← hnode]
    exact h.counts x hx

theorem Refines.turn (hP : P.BincodeRoundTrips) (hwire : W.RoundTrips) (h : s.Refines c)
    (htook : c.TookTurns P) {mv : Move (Fin 3)} (hmv : s.InTurn P W mv) :
    ∃ c', (s.step P W mv).Refines c' ∧ c'.TookTurns P ∧
      ∀ i, (s.node i).state.blocks <+: ((s.step P W mv).node i).state.blocks := by
  obtain ⟨hgossiped, hnext⟩ := h.step (P := P) hwire mv
  rcases s.clusterSteps_single (W := W) mv with hnone | ⟨x, hone⟩
  · rw [hnone] at hnext
    refine ⟨c, hnext, htook, fun i => ?_⟩
    rw [h.node, hnext.node]
    exact List.prefix_rfl
  · obtain ⟨hrecorded, hturn⟩ := hmv.recorded h.toShows (hone ▸ List.mem_singleton_self x)
    rw [hone] at hgossiped hnext
    refine ⟨c.step P x, hnext, htook.step hP hgossiped.1 hrecorded hturn, fun i => ?_⟩
    rw [h.node, hnext.node]
    exact (htook.logStep hP hgossiped.1 hrecorded hturn).2 i

theorem gossip_keeps_one_log (P : Primitives) (hP : P.BincodeRoundTrips) {W : Wire} (hwire : W.RoundTrips)
    (moves : List (Move (Fin 3))) (hturns : AllSteps (step P W) (InTurn P W) (start (Node.fresh P)) moves) :
    AllStates (step P W) (fun s => ∃ c, Shows s c ∧ c.ReadsOneLog P) (start (Node.fresh P)) moves ∧
      AllSteps (step P W) (fun s mv => ∀ i, (s.node i).state.blocks <+: ((s.step P W mv).node i).state.blocks)
        (start (Node.fresh P)) moves := by
  have hstart : ∃ c, (start (Node.fresh P)).Refines c ∧ Cluster.TookTurns P c :=
    ⟨_, start_refines, Cluster.init_tookTurns hP⟩
  have hkeep : ∀ (s : Overlay (Fin 3)) mv, (∃ c, s.Refines c ∧ Cluster.TookTurns P c) → s.InTurn P W mv →
      ∃ c, (s.step P W mv).Refines c ∧ Cluster.TookTurns P c := by
    rintro s mv ⟨c, hc, htook⟩ hmv
    obtain ⟨c', hc', htook', _⟩ := hc.turn hP hwire htook hmv
    exact ⟨c', hc', htook'⟩
  constructor
  · refine (invariant hkeep hstart hturns).mono ?_
    rintro s ⟨c, hc, htook⟩
    exact ⟨c, hc.toShows, htook.readsOneLog⟩
  · refine allSteps_of_invariant hkeep ?_ hstart hturns
    rintro s mv ⟨c, hc, htook⟩ hmv
    obtain ⟨_, _, _, hgrows⟩ := hc.turn hP hwire htook hmv
    exact hgrows

section Runs

theorem inTurn_of_node {mv : Move (Fin 3)} {x : Fin 3 × Event} (hx : s.clusterSteps W mv = [x])
    (hnode : c.node = s.node) (hrecorded : Cluster.Recorded P c x) (hturn : c.TakesItsTurn P x) :
    s.InTurn P W mv := by
  have hall : ∀ {Q : Fin 3 × Event → Prop}, Q x → ∀ y ∈ s.clusterSteps W mv, Q y := by
    intro Q hQ y hy
    rw [hx] at hy
    exact List.mem_singleton.mp hy ▸ hQ
  refine ⟨hall hrecorded.1, hall ?_, hall ?_, hall ?_⟩
  · rw [← hnode]
    exact hrecorded.2
  · rw [← hnode]
    exact hturn.waits
  · rw [← hnode]
    exact hturn.counts

theorem inTurn_of_none {mv : Move (Fin 3)} (hx : s.clusterSteps W mv = []) : s.InTurn P W mv := by
  have hall : ∀ {Q : Fin 3 × Event → Prop}, ∀ y ∈ s.clusterSteps W mv, Q y := by
    intro Q y hy
    rw [hx] at hy
    exact absurd hy List.not_mem_nil
  exact ⟨hall, hall, hall, hall⟩

def blockRun : List (Move (Fin 3)) :=
  [.event 1 .startProducer, .event 1 (.tick 10 true), .publish 1 ∅, .publish 1 {2}, .arrive 0 2,
   .handle 2 .insertion fun _ => true]

theorem blockRun_handled : (run (step .sample .sample) threeNodes (blockRun.take 5)).clusterSteps .sample
    (.handle 2 .insertion fun _ => true) =
      [(2, .message (.newBlock Cluster.blockOfOne) .insertion fun _ => true)] := by
  have hhead : ((run (step .sample .sample) threeNodes (blockRun.take 5)).net.inbox 2).head? = some 0 := by
    decide +kernel
  have hposts : (run (step .sample .sample) threeNodes (blockRun.take 5)).net.posts[0]?.map (·.message.msg) =
      some (.newBlock Cluster.blockOfOne) := by decide +kernel
  obtain ⟨post, hpost, hmsg⟩ := Option.map_eq_some_iff.mp hposts
  have hnext := next_of_head sample_wireRoundTrips hhead hpost
  unfold clusterSteps
  dsimp only
  rw [hnext, hmsg]

theorem blockRun_inTurn : AllSteps (step .sample .sample) (InTurn .sample .sample) threeNodes blockRun := by
  refine ⟨?_, ?_, inTurn_of_none rfl, inTurn_of_none rfl, inTurn_of_none rfl, ?_, trivial⟩
  · refine inTurn_of_node (c := Cluster.init .sample) rfl rfl ⟨trivial, by decide +kernel⟩ (by decide +kernel)
  · refine inTurn_of_node (c := run (Cluster.step .sample) (Cluster.init .sample) [(1, .startProducer)])
      rfl rfl ⟨rfl, by decide +kernel⟩ (by decide +kernel)
  · refine inTurn_of_node (c := run (Cluster.step .sample) (Cluster.init .sample)
      [(1, .startProducer), (1, .tick 10 true)])
      blockRun_handled rfl ⟨by simp [Event.savesOk], by decide +kernel⟩ (by decide +kernel)

theorem gossip_keeps_one_log_blockRun :
    AllStates (step .sample .sample) (fun s => ∃ c, Shows s c ∧ c.ReadsOneLog .sample) threeNodes blockRun ∧
      AllSteps (step .sample .sample)
        (fun s mv => ∀ i, (s.node i).state.blocks <+: ((s.step .sample .sample mv).node i).state.blocks)
        threeNodes blockRun :=
  gossip_keeps_one_log .sample sample_roundTrips sample_wireRoundTrips blockRun blockRun_inTurn

end Runs

end VelaNetwork.Overlay
