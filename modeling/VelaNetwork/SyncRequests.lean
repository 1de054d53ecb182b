import VelaNetwork.Library.Gossip
import VelaNetwork.Replay

namespace VelaNetwork

open Library.Gossip
open Library.Runs

/-- The functions of third parties between a node and its peers: JSON and the hasher of the identifiers. -/
structure Wire where
  toVec : NetworkMessage → Bytes
  fromSlice : Bytes → Option NetworkMessage
  hash : Bytes → UInt64

def Wire.RoundTrips (W : Wire) : Prop := ∀ msg, W.fromSlice (W.toVec msg) = some msg

/-- A message on its way; `request` is history: the number of the post in whose handling it was sent. -/
structure Letter where
  msg : NetworkMessage
  request : Option ℕ
deriving DecidableEq

def Letter.data (W : Wire) (letter : Letter) : Bytes := W.toVec letter.msg

/-- The `message_id_fn` of the configuration. -/
def messageId (W : Wire) (letter : Letter) : String := toString (W.hash (letter.data W))

def Letter.isRequest (letter : Letter) : Bool :=
  match letter.msg with
  | .syncRequest _ => true
  | _ => false

def Letter.isResponse (letter : Letter) : Bool :=
  match letter.msg with
  | .syncResponse _ => true
  | _ => false

/-- The cached message may stand for this one: never for a request, and for a response only if it answers the
same one. -/
def Excused (cached letter : Letter) : Prop :=
  letter.isRequest = false ∧
    (letter.isResponse = true → cached.isResponse = true ∧ cached.request = letter.request)

instance (cached letter : Letter) : Decidable (Excused cached letter) :=
  inferInstanceAs (Decidable (_ ∧ (_ → _ ∧ _)))

structure Handling (ι : Type) where
  post : ℕ
  peer : ι
  fromHeight : UInt64
  blocks : List Block

def Handling.higher {ι : Type} (h : Handling ι) : List Block :=
  h.blocks.filter fun b => h.fromHeight < b.header.height

def Handling.response {ι : Type} (h : Handling ι) : Letter := ⟨.syncResponse h.higher, some h.post⟩

structure Overlay (ι : Type) where
  node : ι → Node
  net : Net ι Letter String
  requests : List (Handling ι)

inductive Move (ι : Type) where
  | event (i : ι) (e : Event)
  | publish (i : ι) (peers : Finset ι)
  | arrive (k : ℕ) (j : ι)
  | handle (j : ι) (order : IterOrder) (saves : ℕ → Bool)
  | expire (i : ι) (keep : String → Bool)
  | restart (i : ι) (saved : Bool)

def Event.isLocal : Event → Bool
  | .message _ _ _ => false
  | .restart _ => false
  | _ => true

namespace Overlay

variable {ι : Type}

def start (node : ι → Node) : Overlay ι := ⟨node, .idle, []⟩

def next (W : Wire) (s : Overlay ι) (j : ι) : Option (ℕ × NetworkMessage) := do
  let k ← (s.net.inbox j).head?
  let post ← s.net.posts[k]?
  let msg ← W.fromSlice (post.message.data W)
  return (k, msg)

def handling (s : Overlay ι) (j : ι) (k : ℕ) : NetworkMessage → List (Handling ι)
  | .syncRequest fromHeight => [⟨k, j, fromHeight, (s.node j).state.blocks⟩]
  | _ => []

section Decoding

variable {W : Wire} {s : Overlay ι}

theorem next_of_head (hwire : W.RoundTrips) {j : ι} {k : ℕ} {post : Post ι Letter}
    (hhead : (s.net.inbox j).head? = some k) (hpost : s.net.posts[k]? = some post) :
    s.next W j = some (k, post.message.msg) := by
  unfold next Letter.data
  rw [hhead, Option.bind_eq_bind, Option.bind_some, hpost, Option.bind_eq_bind, Option.bind_some, hwire]
  rfl

theorem head_of_next {j : ι} {k : ℕ} {msg : NetworkMessage} (h : s.next W j = some (k, msg)) :
    (s.net.inbox j).head? = some k := by
  obtain ⟨k', hhead, h⟩ := Option.bind_eq_some_iff.mp h
  obtain ⟨post, _, h⟩ := Option.bind_eq_some_iff.mp h
  obtain ⟨msg', _, heq⟩ := Option.bind_eq_some_iff.mp h
  obtain ⟨rfl, _⟩ := Prod.mk.inj (Option.some.inj heq)
  exact hhead

end Decoding

structure Recorded (s : Overlay ι) : Prop where
  net : s.net.Accounted
  requests : ∀ k j post fromHeight, (k, j) ∈ s.net.handled → s.net.posts[k]? = some post →
    post.message.msg = .syncRequest fromHeight →
      ∃ h ∈ s.requests, h.post = k ∧ h.peer = j ∧ h.fromHeight = fromHeight
  responses : ∀ h ∈ s.requests, h.higher ≠ [] → (h.peer, h.response) ∈ s.net.sent

theorem start_recorded (node : ι → Node) : (start node).Recorded where
  net := Net.idle_accounted
  requests := by
    intro k j post fromHeight hhandled
    exact absurd hhandled List.not_mem_nil
  responses := by
    intro h hh
    exact absurd hh List.not_mem_nil

variable (P : Primitives) (W : Wire) [DecidableEq ι]

def step (s : Overlay ι) : Move ι → Overlay ι
  | .event i e =>
    if e.isLocal then
      { s with
        node := Function.update s.node i ((s.node i).step P e)
        net := s.net.enqueue i (((s.node i).sends P e).map (⟨·, none⟩)) }
    else s
  | .publish i peers => { s with net := s.net.publish (messageId W) i peers }
  | .arrive k j => { s with net := s.net.arrive (messageId W) k j }
  | .handle j order saves =>
    match s.next W j with
    | none => { s with net := s.net.handle j [] }
    | some (k, msg) =>
      { node := Function.update s.node j ((s.node j).step P (.message msg order saves))
        net := s.net.handle j (((s.node j).sends P (.message msg order saves)).map (⟨·, some k⟩))
        requests := s.requests ++ s.handling j k msg }
  | .expire i keep => { s with net := s.net.expire i keep }
  | .restart i saved =>
    { s with
      node := Function.update s.node i ((s.node i).step P (.restart saved))
      net := s.net.restart i }

structure Served (s : Overlay ι) : Prop where
  published : ∀ i letter, (i, letter) ∈ s.net.sent → letter.isRequest = true →
    letter ∈ s.net.outbox i ∨ (∃ post ∈ s.net.posts, post.source = i ∧ post.message = letter) ∨
      (i, letter) ∈ s.net.unsent
  handled : ∀ k post fromHeight, s.net.posts[k]? = some post → post.message.msg = .syncRequest fromHeight →
    ∀ j ∈ post.peers, (k, j) ∈ s.net.flights ∨ k ∈ s.net.inbox j ∨
      (∃ h ∈ s.requests, h.post = k ∧ h.peer = j ∧ h.fromHeight = fromHeight) ∨
      (k, j) ∈ s.net.lost
  answered : ∀ h ∈ s.requests, h.higher ≠ [] → s.net.TracksMessage h.peer h.response
  delivered : ∀ k post, s.net.posts[k]? = some post → post.message.isResponse = true → ∀ j ∈ post.peers,
    s.net.TracksCopy k j post.message
  apart : ∀ x ∈ s.net.suppressed, Excused x.cached x.message

def Clear (s : Overlay ι) (i : ι) (letter : Letter) : Prop := ∀ cached ∈ s.net.cached (messageId W) i letter,
  W.hash (cached.data W) = W.hash (letter.data W) → Excused cached letter

def Unblocked (s : Overlay ι) : Move ι → Prop
  | .publish i _ => ∀ letter ∈ (s.net.outbox i).head?, s.Clear W i letter
  | .arrive k j => (k, j) ∈ s.net.flights → ∀ post ∈ s.net.posts[k]?, s.Clear W j post.message
  | _ => True

def op (s : Overlay ι) : Move ι → Op ι Letter String
  | .event i e => .send i (if e.isLocal then ((s.node i).sends P e).map (⟨·, none⟩) else [])
  | .publish i peers => .publish i peers
  | .arrive k j => .arrive k j
  | .handle j order saves =>
    .handle j (match s.next W j with
      | none => []
      | some (k, msg) => ((s.node j).sends P (.message msg order saves)).map (⟨·, some k⟩))
  | .expire i keep => .expire i keep
  | .restart i _ => .restart i

section Moves

variable {P W} {s : Overlay ι}

theorem step_net (s : Overlay ι) (mv : Move ι) :
    (s.step P W mv).net = s.net.step (messageId W) (s.op P W mv) := by
  cases mv with
  | event i e =>
    unfold step op
    dsimp only
    split
    · rfl
    · exact (s.net.enqueue_nil i).symm
  | handle j order saves =>
    unfold step op
    dsimp only
    split <;> rfl
  | _ => rfl

theorem handle_net {j : ι} {k : ℕ} {msg : NetworkMessage} (hnext : s.next W j = some (k, msg))
    (order : IterOrder) (saves : ℕ → Bool) : (s.step P W (.handle j order saves)).net =
      s.net.handle j (((s.node j).sends P (.message msg order saves)).map (⟨·, some k⟩)) := by
  unfold step
  dsimp only
  rw [hnext]

theorem handle_requests {j : ι} {k : ℕ} {msg : NetworkMessage} (hnext : s.next W j = some (k, msg))
    (order : IterOrder) (saves : ℕ → Bool) :
    (s.step P W (.handle j order saves)).requests = s.requests ++ s.handling j k msg := by
  unfold step
  dsimp only
  rw [hnext]

theorem handle_node {j : ι} {k : ℕ} {msg : NetworkMessage} (hnext : s.next W j = some (k, msg))
    (order : IterOrder) (saves : ℕ → Bool) : (s.step P W (.handle j order saves)).node =
      Function.update s.node j ((s.node j).step P (.message msg order saves)) := by
  unfold step
  dsimp only
  rw [hnext]

theorem requests_subset (s : Overlay ι) (mv : Move ι) : s.requests ⊆ (s.step P W mv).requests := by
  cases mv with
  | event i e =>
    unfold step
    dsimp only
    split <;> exact List.Subset.refl _
  | handle j order saves =>
    cases hnext : s.next W j with
    | none =>
      unfold step
      dsimp only
      rw [hnext]
      exact List.Subset.refl _
    | some p =>
      rw [handle_requests hnext]
      exact List.subset_append_left _ _
  | _ => exact List.Subset.refl _

theorem mem_step_requests {mv : Move ι} {h : Handling ι} (hmem : h ∈ (s.step P W mv).requests) :
    h ∈ s.requests ∨ ∃ j order saves, mv = .handle j order saves ∧
      s.next W j = some (h.post, .syncRequest h.fromHeight) ∧
      h.peer = j ∧ h.blocks = (s.node j).state.blocks := by
  cases mv with
  | event i e =>
    unfold step at hmem
    dsimp only at hmem
    split at hmem <;> exact Or.inl hmem
  | handle j order saves =>
    cases hnext : s.next W j with
    | none =>
      unfold step at hmem
      dsimp only at hmem
      rw [hnext] at hmem
      exact Or.inl hmem
    | some p =>
      rw [handle_requests hnext] at hmem
      rcases List.mem_append.mp hmem with hold | hnew
      · exact Or.inl hold
      · refine Or.inr ⟨j, order, saves, rfl, ?_⟩
        unfold handling at hnew
        split at hnew
        · rename_i fromHeight hmsg
          obtain rfl := List.mem_singleton.mp hnew
          exact ⟨by rw [hnext, ← hmsg], rfl, rfl⟩
        · exact absurd hnew List.not_mem_nil
  | _ => exact Or.inl hmem

theorem sends_syncRequest (n : Node) (fromHeight : UInt64) (order : IterOrder) (saves : ℕ → Bool)
    (hhigher : (n.state.blocks.filter fun b => fromHeight < b.header.height) ≠ []) :
    n.sends P (.message (.syncRequest fromHeight) order saves) =
      [.syncResponse (n.state.blocks.filter fun b => fromHeight < b.header.height)] :=
  if_neg fun hempty => hhigher (List.isEmpty_iff.mp hempty)

theorem Recorded.step (hwire : W.RoundTrips) (h : s.Recorded) (mv : Move ι) : (s.step P W mv).Recorded := by
  have hnet := step_net (P := P) (W := W) s mv
  have hextends := s.net.step_extends (messageId W) (s.op P W mv)
  rw [← hnet] at hextends
  refine ⟨?_, fun k j post fromHeight hhandled hpost hmsg => ?_, fun r hr hhigher => ?_⟩
  · rw [hnet]
    exact h.net.step _
  · have hold : ∀ k, k < s.net.posts.length → (s.step P W mv).net.posts[k]? = s.net.posts[k]? :=
      fun k hk => (List.prefix_iff_getElem?.mp hextends.posts k hk).trans (List.getElem?_eq_getElem hk).symm
    rcases hextends.handled (k, j) hhandled with hbefore | ⟨hhead, answers, hop⟩
    · rw [hold k (h.net.handled (k, j) hbefore)] at hpost
      obtain ⟨r, hr, hrecord⟩ := h.requests k j post fromHeight hbefore hpost hmsg
      exact ⟨r, s.requests_subset mv hr, hrecord⟩
    · rw [hold k (h.net.waiting j k (List.mem_of_head? hhead))] at hpost
      cases mv with
      | handle j' order saves =>
        obtain ⟨rfl, _⟩ := Op.handle.inj hop
        have hnext := next_of_head hwire hhead hpost
        rw [handle_requests hnext, hmsg]
        exact ⟨_, List.mem_append_right _ List.mem_cons_self, rfl, rfl, rfl⟩
      | _ => cases hop
  · rcases mem_step_requests hr with hbefore | ⟨j, order, saves, rfl, hnext, rfl, hblocks⟩
    · exact hextends.sent (h.responses r hbefore hhigher)
    · have hanswer : r.response =
          ⟨.syncResponse ((s.node r.peer).state.blocks.filter fun b => r.fromHeight < b.header.height),
          some r.post⟩ := by
        rw [← hblocks]
        rfl
      unfold Handling.higher at hhigher
      rw [hblocks] at hhigher
      rw [handle_net hnext, sends_syncRequest _ _ _ _ hhigher, hanswer]
      exact Net.mem_handle_sent (head_of_next hnext) (List.mem_singleton_self _)

theorem toString_injective {a b : UInt64} (h : toString a = toString b) : a = b := by
  have hrepr : Nat.repr a.toNat = Nat.repr b.toNat := h
  have hdigits : Nat.toDigits 10 a.toNat = Nat.toDigits 10 b.toNat := by
    rw [← Nat.toList_repr, hrepr, Nat.toList_repr]
  have hvalue : ∀ n : ℕ, Nat.ofDigitChars 10 (Nat.toDigits 10 n) 0 = n :=
    fun n => Nat.ofDigitChars_toDigits (by decide) (by decide)
  rw [← UInt64.toNat_inj, ← hvalue a.toNat, hdigits, hvalue]

omit [DecidableEq ι] in
theorem clear_iff (h : s.net.Labelled (messageId W)) (i : ι) (letter : Letter) :
    s.Clear W i letter ↔ ∀ cached ∈ s.net.cached (messageId W) i letter, Excused cached letter := by
  constructor
  · intro hclear cached hcached
    exact hclear cached hcached (toString_injective (h.cached hcached))
  · intro hexcused cached hcached _
    exact hexcused cached hcached

theorem unblocked_iff (h : s.net.Labelled (messageId W)) (mv : Move ι) :
    (∀ x ∈ s.net.suppresses (messageId W) (s.op P W mv), Excused x.cached x.message) ↔ s.Unblocked W mv := by
  unfold Net.suppresses op Unblocked
  cases mv with
  | publish i peers =>
    dsimp only
    cases (s.net.outbox i).head? with
    | none => exact iff_of_true (by rintro x ⟨⟩) (by rintro letter ⟨⟩)
    | some letter =>
      rw [Option.bind_some, Option.forall_mem_map]
      simp only [Option.mem_some_iff, forall_eq', clear_iff h]
  | arrive k j =>
    dsimp only
    by_cases hflight : (k, j) ∈ s.net.flights
    · rw [if_pos hflight]
      cases s.net.posts[k]? with
      | none => exact iff_of_true (by rintro x ⟨⟩) (by rintro _ post ⟨⟩)
      | some post =>
        rw [Option.bind_some, Option.forall_mem_map]
        simp only [hflight, forall_const, Option.mem_some_iff, forall_eq', clear_iff h]
    · rw [if_neg hflight]
      exact iff_of_true (by rintro x ⟨⟩) fun h => absurd h hflight
  | _ => exact iff_of_true (by rintro x ⟨⟩) trivial

omit [DecidableEq ι] in
theorem Recorded.served_iff (h : s.Recorded) :
    s.Served ↔ ∀ x ∈ s.net.suppressed, Excused x.cached x.message := by
  constructor
  · exact fun hserved => hserved.apart
  · intro happart
    have hrequest : ∀ x ∈ s.net.suppressed, x.message.isRequest ≠ true := by
      intro x hx
      rw [(happart x hx).1]
      exact Bool.false_ne_true
    refine ⟨fun i letter hsent hletter => ?_,
      fun k post fromHeight hpost hmsg j hj => ?_, fun r hr hhigher => ?_,
      fun k post hpost _ j hj => h.net.copies k post hpost j hj, happart⟩
    · obtain hwaiting | hposted | hunsent | ⟨x, hx, _, _, rfl⟩ := h.net.messages i letter hsent
      · exact Or.inl hwaiting
      · exact Or.inr (Or.inl hposted)
      · exact Or.inr (Or.inr hunsent)
      · exact absurd hletter (hrequest x hx)
    · obtain hflying | hwaiting | hhandled | hlost | ⟨x, hx, _, _, hsame⟩ := h.net.copies k post hpost j hj
      · exact Or.inl hflying
      · exact Or.inr (Or.inl hwaiting)
      · exact Or.inr (Or.inr (Or.inl (h.requests k j post fromHeight hhandled hpost hmsg)))
      · exact Or.inr (Or.inr (Or.inr hlost))
      · refine absurd ?_ (hrequest x hx)
        unfold Letter.isRequest
        rw [hsame, hmsg]
    · exact h.net.messages _ _ (h.responses r hr hhigher)

end Moves

theorem each_request_served_iff (P : Primitives) {W : Wire} (hwire : W.RoundTrips) (node : ι → Node)
    (moves : List (Move ι)) :
    AllStates (step P W) Served (start node) moves ↔
      AllSteps (step P W) (Unblocked W) (start node) moves := by
  have hanything : AllSteps (step P W) (fun _ _ => True) (start node) moves :=
    allSteps_of_forall fun _ _ => trivial
  have hrecorded := start_recorded node
  have hserved : (start node).Served := hrecorded.served_iff.mpr (List.forall_mem_nil _)
  have hlabelled : (start node).net.Labelled (messageId W) := Net.idle_labelled (messageId W)
  have hkeep : ∀ (s : Overlay ι) (mv : Move ι), s.Recorded ∧ s.net.Labelled (messageId W) → True →
      (s.step P W mv).Recorded ∧ (s.step P W mv).net.Labelled (messageId W) := by
    rintro s mv ⟨h, hlabelled⟩ _
    refine ⟨h.step hwire mv, ?_⟩
    rw [step_net]
    exact hlabelled.step (s.op P W mv)
  apply allStates_iff_allSteps hkeep _ ⟨hrecorded, hlabelled⟩ hserved hanything
  rintro s mv ⟨h, hlabelled⟩ _ hserved
  rw [(h.step hwire mv).served_iff, step_net, Net.forall_step_suppressed, unblocked_iff hlabelled]
  exact and_iff_right (h.served_iff.mp hserved)

end Overlay

section Runs

open Overlay

variable {ι : Type} [DecidableEq ι]

deriving instance Countable for NetworkMessage

noncomputable instance : Encodable NetworkMessage := Encodable.ofCountable NetworkMessage

/-- Requests are told by their first byte, so that their identifiers can be computed. -/
noncomputable def Wire.sample : Wire where
  toVec
    | .syncRequest fromHeight => 0 :: List.replicate fromHeight.toNat 0
    | msg => 1 :: List.replicate (Encodable.encode msg) 0
  fromSlice
    | 0 :: rest => some (.syncRequest (UInt64.ofNat rest.length))
    | _ :: rest => Encodable.decode rest.length
    | [] => none
  hash data := UInt64.ofNat (mix data)

instance (W : Wire) (s : Overlay ι) (i : ι) (letter : Letter) : Decidable (s.Clear W i letter) :=
  inferInstanceAs (Decidable (∀ cached ∈ s.net.cached (messageId W) i letter,
    W.hash (cached.data W) = W.hash (letter.data W) → Excused cached letter))

instance (W : Wire) (s : Overlay ι) (mv : Move ι) : Decidable (s.Unblocked W mv) :=
  match mv with
  | .publish i _ => inferInstanceAs (Decidable (∀ letter ∈ (s.net.outbox i).head?, s.Clear W i letter))
  | .arrive k j => inferInstanceAs (Decidable ((k, j) ∈ s.net.flights → ∀ post ∈ s.net.posts[k]?,
      s.Clear W j post.message))
  | .event _ _ | .handle _ _ _ | .expire _ _ | .restart _ _ => inferInstanceAs (Decidable True)

theorem sample_wireRoundTrips : Wire.sample.RoundTrips := by
  intro msg
  cases msg with
  | syncRequest fromHeight =>
    change some (NetworkMessage.syncRequest (UInt64.ofNat (List.replicate fromHeight.toNat 0).length)) = _
    rw [List.length_replicate, UInt64.ofNat_toNat]
  | _ =>
    refine Eq.trans (congrArg Encodable.decode ?_) (Encodable.encodek _)
    exact List.length_replicate

noncomputable def threeNodes : Overlay (Fin 3) := start fun i => Node.fresh .sample i

def oneRequest : List (Move (Fin 3)) :=
  [.event 1 .requestSync, .publish 1 {0, 2}, .arrive 0 0, .arrive 0 2, .handle 0 .insertion fun _ => true]

theorem each_request_served_once : AllStates (step .sample .sample) Served threeNodes oneRequest :=
  (each_request_served_iff .sample sample_wireRoundTrips _ oneRequest).mpr (by decide +kernel)

theorem not_served_of_any {ι : Type} {s : Overlay ι}
    (h : s.net.suppressed.any (fun x => x.message.isRequest) = true) : ¬ s.Served := by
  intro hserved
  obtain ⟨x, hx, hrequest⟩ := List.any_eq_true.mp h
  rw [(hserved.apart x hx).1] at hrequest
  cases hrequest

def twoRequests : List (Move (Fin 3)) :=
  [.event 1 .requestSync, .event 2 .requestSync, .publish 1 {0, 2}, .arrive 0 2, .publish 2 {0, 1}]

def askOnce : List (Move (Fin 3)) := [.event 1 .requestSync, .publish 1 {0}, .arrive 0 0]

def askAgain : List (Move (Fin 3)) := [.event 1 .requestSync, .publish 1 {0}, .arrive 1 0]

theorem fresh_restart (i : Fin 3) :
    Node.step .sample { Node.fresh .sample i with syncDue := false } (.restart true) =
      Node.fresh .sample i := by
  obtain ⟨hfresh, _⟩ := Node.start_consistent sample_roundTrips (Node.start_fresh sample_roundTrips i)
  have hasked : Node.Consistent .sample { Node.fresh .sample i with syncDue := false } :=
    ⟨hfresh.nonempty, hfresh.heights, hfresh.database, hfresh.ledger⟩
  exact Node.restart_of_consistent sample_roundTrips hasked true

theorem second_request_suppressed : ¬ AllStates (step .sample .sample) Served threeNodes twoRequests ∧
    ¬ AllStates (step .sample .sample) Served threeNodes (askOnce ++ .restart 1 true :: askAgain) := by
  constructor
  · exact fun h => not_served_of_any (by decide +kernel) h.last
  · intro h
    have hserved := h.last
    let asked := run (step .sample .sample) threeNodes askOnce
    have hasked : asked.node =
        Function.update threeNodes.node 1 { Node.fresh .sample 1 with syncDue := false } := rfl
    have hnode : asked.node 1 = { Node.fresh .sample 1 with syncDue := false } := by
      rw [hasked, Function.update_self]
    have hrestart : asked.step .sample .sample (.restart 1 true) =
        { asked with
          node := Function.update asked.node 1 (Node.fresh .sample 1)
          net := asked.net.restart 1 } := by
      rw [← fresh_restart 1, ← hnode]
      rfl
    rw [run_append, run_cons] at hserved
    change (run (step .sample .sample) (asked.step .sample .sample (.restart 1 true))
      askAgain).Served at hserved
    rw [hrestart] at hserved
    exact not_served_of_any (by decide +kernel) hserved

end Runs

end VelaNetwork
