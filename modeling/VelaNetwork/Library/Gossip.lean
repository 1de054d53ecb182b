import VelaNetwork.Library.Runs
import Mathlib.Data.Finset.Image
import Mathlib.Logic.Function.Basic

namespace Library.Gossip

structure Post (ι M : Type*) where
  source : ι
  message : M
  peers : Finset ι

/-- A message that was not published, or the copy of a post that was not taken, because the cache of the node
held its identifier, from the message `cached`. -/
structure Suppression (ι M : Type*) where
  node : ι
  copy : Option ℕ
  message : M
  cached : M

/-- Nodes with their queues of outgoing messages and of posts to handle, and with the identifiers that they
have lately published or received, each with the message it came from. `flights` are the copies on their way.
What stands below is history: `unsent` messages had nobody to go to or were queued at a restart, `lost` posts
were queued at one. -/
structure Net (ι M I : Type*) where
  outbox : ι → List M
  inbox : ι → List ℕ
  seen : ι → List (I × M)
  flights : Finset (ℕ × ι)
  posts : List (Post ι M)
  sent : List (ι × M)
  unsent : List (ι × M)
  handled : List (ℕ × ι)
  lost : List (ℕ × ι)
  suppressed : List (Suppression ι M)

inductive Op (ι M I : Type*) where
  | send (i : ι) (messages : List M)
  | publish (i : ι) (peers : Finset ι)
  | arrive (k : ℕ) (j : ι)
  | handle (j : ι) (answers : List M)
  | expire (i : ι) (keep : I → Bool)
  | restart (i : ι)

namespace Net

variable {ι M I : Type*}

def idle : Net ι M I where
  outbox _ := []
  inbox _ := []
  seen _ := []
  flights := ∅
  posts := []
  sent := []
  unsent := []
  handled := []
  lost := []
  suppressed := []

def TracksMessage (s : Net ι M I) (i : ι) (m : M) : Prop :=
  m ∈ s.outbox i ∨ (∃ post ∈ s.posts, post.source = i ∧ post.message = m) ∨ (i, m) ∈ s.unsent ∨
    ∃ x ∈ s.suppressed, x.node = i ∧ x.copy = none ∧ x.message = m

def TracksCopy (s : Net ι M I) (k : ℕ) (j : ι) (m : M) : Prop :=
  (k, j) ∈ s.flights ∨ k ∈ s.inbox j ∨ (k, j) ∈ s.handled ∨ (k, j) ∈ s.lost ∨
    ∃ x ∈ s.suppressed, x.node = j ∧ x.copy = some k ∧ x.message = m

structure Accounted (s : Net ι M I) : Prop where
  messages : ∀ i m, (i, m) ∈ s.sent → s.TracksMessage i m
  copies : ∀ k post, s.posts[k]? = some post → ∀ j ∈ post.peers, s.TracksCopy k j post.message
  waiting : ∀ j, ∀ k ∈ s.inbox j, k < s.posts.length
  handled : ∀ p ∈ s.handled, p.1 < s.posts.length

def Labelled (messageId : M → I) (s : Net ι M I) : Prop := ∀ i, ∀ e ∈ s.seen i, e.1 = messageId e.2

section Tracks

variable {s s' : Net ι M I} {i j : ι} {k : ℕ} {m : M}

structure Grows (s s' : Net ι M I) : Prop where
  posts : s.posts <+: s'.posts
  unsent : s.unsent ⊆ s'.unsent
  handled : s.handled ⊆ s'.handled
  lost : s.lost ⊆ s'.lost
  suppressed : s.suppressed ⊆ s'.suppressed

theorem Grows.refl (s : Net ι M I) : Grows s s :=
  ⟨List.prefix_rfl, List.Subset.refl _, List.Subset.refl _, List.Subset.refl _, List.Subset.refl _⟩

theorem TracksMessage.mono (hgrows : Grows s s') (houtbox : m ∈ s.outbox i → s'.TracksMessage i m)
    (h : s.TracksMessage i m) :
    s'.TracksMessage i m := by
  rcases h with hwaiting | ⟨post, hpost, hsame⟩ | hunsent | ⟨x, hx, hsame⟩
  · exact houtbox hwaiting
  · exact Or.inr (Or.inl ⟨post, hgrows.posts.subset hpost, hsame⟩)
  · exact Or.inr (Or.inr (Or.inl (hgrows.unsent hunsent)))
  · exact Or.inr (Or.inr (Or.inr ⟨x, hgrows.suppressed hx, hsame⟩))

theorem TracksCopy.mono (hgrows : Grows s s') (hflight : (k, j) ∈ s.flights → s'.TracksCopy k j m)
    (hinbox : k ∈ s.inbox j → s'.TracksCopy k j m) (h : s.TracksCopy k j m) : s'.TracksCopy k j m := by
  rcases h with hflying | hwaiting | hhandled | hlost | ⟨x, hx, hsame⟩
  · exact hflight hflying
  · exact hinbox hwaiting
  · exact Or.inr (Or.inr (Or.inl (hgrows.handled hhandled)))
  · exact Or.inr (Or.inr (Or.inr (Or.inl (hgrows.lost hlost))))
  · exact Or.inr (Or.inr (Or.inr (Or.inr ⟨x, hgrows.suppressed hx, hsame⟩)))

theorem idle_accounted : (idle : Net ι M I).Accounted where
  messages := by
    intro i m hsent
    exact absurd hsent List.not_mem_nil
  copies := by
    intro k post hpost
    cases hpost
  waiting := by
    intro j k hwaiting
    exact absurd hwaiting List.not_mem_nil
  handled := by
    intro p hp
    exact absurd hp List.not_mem_nil

theorem idle_labelled (messageId : M → I) : (idle : Net ι M I).Labelled messageId :=
  fun _ _ he => absurd he List.not_mem_nil

end Tracks

variable [DecidableEq ι]

section Queues

variable {α : Type*} {queue : ι → List α} {i j : ι} {x y : α} {rest added : List α}

theorem mem_update_rest (hqueue : queue i = x :: rest) (hy : y ∈ queue j) :
    y ∈ Function.update queue i rest j ∨ j = i ∧ y = x := by
  by_cases hj : j = i
  · subst hj
    rw [hqueue] at hy
    rcases List.mem_cons.mp hy with hfirst | hrest
    · exact Or.inr ⟨rfl, hfirst⟩
    · rw [Function.update_self]
      exact Or.inl hrest
  · rw [Function.update_of_ne hj]
    exact Or.inl hy

theorem mem_update_append (hy : y ∈ queue j) : y ∈ Function.update queue i (queue i ++ added) j := by
  by_cases hj : j = i
  · subst hj
    rw [Function.update_self]
    exact List.mem_append_left added hy
  · rwa [Function.update_of_ne hj]

theorem mem_update_nil (hy : y ∈ queue j) : y ∈ Function.update queue i [] j ∨ j = i := by
  by_cases hj : j = i
  · exact Or.inr hj
  · rw [Function.update_of_ne hj]
    exact Or.inl hy

theorem mem_of_mem_update {new : List α} (hy : y ∈ Function.update queue i new j) :
    y ∈ queue j ∨ j = i ∧ y ∈ new := by
  by_cases hj : j = i
  · subst hj
    rw [Function.update_self] at hy
    exact Or.inr ⟨rfl, hy⟩
  · rw [Function.update_of_ne hj] at hy
    exact Or.inl hy

end Queues

def enqueue (s : Net ι M I) (i : ι) (messages : List M) : Net ι M I :=
  { s with
    outbox := Function.update s.outbox i (s.outbox i ++ messages)
    sent := s.sent ++ messages.map fun m => (i, m) }

def refuse (s : Net ι M I) (i : ι) (m m' : M) (rest : List M) : Net ι M I :=
  { s with
    outbox := Function.update s.outbox i rest
    suppressed := s.suppressed ++ [⟨i, none, m, m'⟩] }

def withhold (s : Net ι M I) (i : ι) (m : M) (rest : List M) : Net ι M I :=
  { s with
    outbox := Function.update s.outbox i rest
    unsent := s.unsent ++ [(i, m)] }

def drop (s : Net ι M I) (k : ℕ) (j : ι) (m m' : M) : Net ι M I :=
  { s with
    flights := s.flights.erase (k, j)
    suppressed := s.suppressed ++ [⟨j, some k, m, m'⟩] }

def take (s : Net ι M I) (j : ι) (k : ℕ) (rest : List ℕ) : Net ι M I :=
  { s with
    inbox := Function.update s.inbox j rest
    handled := s.handled ++ [(k, j)] }

def handle (s : Net ι M I) (j : ι) (answers : List M) : Net ι M I :=
  match s.inbox j with
  | [] => s
  | k :: rest => (s.take j k rest).enqueue j answers

def expire (s : Net ι M I) (i : ι) (keep : I → Bool) : Net ι M I :=
  { s with seen := Function.update s.seen i ((s.seen i).filter fun e => keep e.1) }

def restart (s : Net ι M I) (i : ι) : Net ι M I :=
  { s with
    outbox := Function.update s.outbox i []
    inbox := Function.update s.inbox i []
    seen := Function.update s.seen i []
    unsent := s.unsent ++ (s.outbox i).map fun m => (i, m)
    lost := s.lost ++ (s.inbox i).map fun k => (k, i) }

theorem enqueue_nil (s : Net ι M I) (i : ι) : s.enqueue i [] = s := by
  unfold enqueue
  rw [List.append_nil, Function.update_eq_self, List.map_nil, List.append_nil]

theorem handle_cases (s : Net ι M I) (j : ι) (answers : List M) :
    s.handle j answers = s ∧ s.inbox j = [] ∨
      ∃ k rest, s.inbox j = k :: rest ∧ s.handle j answers = (s.take j k rest).enqueue j answers := by
  unfold handle
  cases hinbox : s.inbox j with
  | nil => exact Or.inl ⟨rfl, rfl⟩
  | cons k rest => exact Or.inr ⟨k, rest, rfl, rfl⟩

theorem mem_handle_sent {s : Net ι M I} {j : ι} {k : ℕ} (hhead : (s.inbox j).head? = some k) {m : M}
    {answers : List M} (hm : m ∈ answers) : (j, m) ∈ (s.handle j answers).sent := by
  obtain ⟨_, hinbox⟩ | ⟨k', rest, _, hhandled⟩ := s.handle_cases j answers
  · rw [hinbox] at hhead
    cases hhead
  · rw [hhandled]
    exact List.mem_append_right _ (List.mem_map_of_mem hm)

section Accounts

variable {s : Net ι M I} {i j : ι} {k : ℕ} {m m' : M} {rest : List M}

theorem Accounted.enqueue (h : s.Accounted) (i : ι) (messages : List M) :
    (s.enqueue i messages).Accounted where
  messages := by
    intro i' m hsent
    rcases List.mem_append.mp hsent with hold | hnew
    · exact (h.messages i' m hold).mono { Grows.refl s with }
        fun hwaiting => Or.inl (mem_update_append hwaiting)
    · obtain ⟨m, hm, heq⟩ := List.mem_map.mp hnew
      obtain ⟨rfl, rfl⟩ := Prod.mk.inj heq
      refine Or.inl ?_
      change m ∈ Function.update s.outbox i (s.outbox i ++ messages) i
      rw [Function.update_self]
      exact List.mem_append_right _ hm
  copies := h.copies
  waiting := h.waiting
  handled := h.handled

theorem Accounted.refuse (h : s.Accounted) (houtbox : s.outbox i = m :: rest) (m' : M) :
    (s.refuse i m m' rest).Accounted := by
  have hgrows : Grows s (s.refuse i m m' rest) :=
    { Grows.refl s with suppressed := List.subset_append_left _ _ }
  refine ⟨fun i' m₀ hsent => ?_, fun k post hpost j hj => ?_, h.waiting, h.handled⟩
  · refine (h.messages i' m₀ hsent).mono hgrows fun hwaiting => ?_
    obtain hstays | ⟨rfl, rfl⟩ := mem_update_rest houtbox hwaiting
    · exact Or.inl hstays
    · exact Or.inr (Or.inr (Or.inr ⟨_, List.mem_append_right _ List.mem_cons_self, rfl, rfl, rfl⟩))
  · exact (h.copies k post hpost j hj).mono hgrows Or.inl fun hwaiting => Or.inr (Or.inl hwaiting)

theorem Accounted.withhold (h : s.Accounted) (houtbox : s.outbox i = m :: rest) :
    (s.withhold i m rest).Accounted := by
  have hgrows : Grows s (s.withhold i m rest) := { Grows.refl s with unsent := List.subset_append_left _ _ }
  refine ⟨fun i' m₀ hsent => ?_, h.copies, h.waiting, h.handled⟩
  refine (h.messages i' m₀ hsent).mono hgrows fun hwaiting => ?_
  obtain hstays | ⟨rfl, rfl⟩ := mem_update_rest houtbox hwaiting
  · exact Or.inl hstays
  · exact Or.inr (Or.inr (Or.inl (List.mem_append_right _ List.mem_cons_self)))

theorem Accounted.drop (h : s.Accounted) {post : Post ι M} (hpost : s.posts[k]? = some post) (m' : M) :
    (s.drop k j post.message m').Accounted := by
  have hgrows : Grows s (s.drop k j post.message m') :=
    { Grows.refl s with suppressed := List.subset_append_left _ _ }
  refine ⟨fun i m hsent => ?_, fun k' post' hpost' j' hj' => ?_, h.waiting, h.handled⟩
  · exact (h.messages i m hsent).mono hgrows Or.inl
  · refine (h.copies k' post' hpost' j' hj').mono hgrows (fun hflying => ?_)
      fun hwaiting => Or.inr (Or.inl hwaiting)
    by_cases hthis : (k', j') = (k, j)
    · obtain ⟨rfl, rfl⟩ := Prod.mk.inj hthis
      obtain rfl := Option.some.inj (hpost.symm.trans hpost')
      exact Or.inr (Or.inr (Or.inr (Or.inr ⟨_, List.mem_append_right _ List.mem_cons_self, rfl, rfl, rfl⟩)))
    · exact Or.inl (Finset.mem_erase.mpr ⟨hthis, hflying⟩)

theorem Accounted.take (h : s.Accounted) {rest : List ℕ} (hinbox : s.inbox j = k :: rest) :
    (s.take j k rest).Accounted := by
  have hgrows : Grows s (s.take j k rest) := { Grows.refl s with handled := List.subset_append_left _ _ }
  refine ⟨h.messages, fun k' post hpost j' hj' => ?_, fun j' k' hwaiting => ?_, fun p hp => ?_⟩
  · refine (h.copies k' post hpost j' hj').mono hgrows Or.inl fun hwaiting => ?_
    obtain hstays | ⟨rfl, rfl⟩ := mem_update_rest hinbox hwaiting
    · exact Or.inr (Or.inl hstays)
    · exact Or.inr (Or.inr (Or.inl (List.mem_append_right _ List.mem_cons_self)))
  · rcases mem_of_mem_update hwaiting with hold | ⟨rfl, hrest⟩
    · exact h.waiting j' k' hold
    · exact h.waiting j' k' (hinbox ▸ List.mem_cons_of_mem k hrest)
  · rcases List.mem_append.mp hp with hold | hnew
    · exact h.handled p hold
    · obtain rfl := List.mem_singleton.mp hnew
      exact h.waiting j k (hinbox ▸ List.mem_cons_self)

theorem Accounted.restart (h : s.Accounted) (i : ι) : (s.restart i).Accounted := by
  have hgrows : Grows s (s.restart i) :=
    { Grows.refl s with unsent := List.subset_append_left _ _, lost := List.subset_append_left _ _ }
  refine ⟨fun i' m hsent => ?_, fun k post hpost j hj => ?_, fun j k hwaiting => ?_, h.handled⟩
  · refine (h.messages i' m hsent).mono hgrows fun hwaiting => ?_
    rcases mem_update_nil (i := i) hwaiting with hstays | rfl
    · exact Or.inl hstays
    · exact Or.inr (Or.inr (Or.inl (List.mem_append_right _ (List.mem_map_of_mem hwaiting))))
  · refine (h.copies k post hpost j hj).mono hgrows Or.inl fun hwaiting => ?_
    rcases mem_update_nil (i := i) hwaiting with hstays | rfl
    · exact Or.inr (Or.inl hstays)
    · exact Or.inr (Or.inr (Or.inr
        (Or.inl (List.mem_append_right _ (List.mem_map_of_mem (f := fun k => (k, j)) hwaiting)))))
  · rcases mem_of_mem_update hwaiting with hold | ⟨_, hnone⟩
    · exact h.waiting j k hold
    · exact absurd hnone List.not_mem_nil

end Accounts

variable (messageId : M → I)

def remember (s : Net ι M I) (i : ι) (m : M) : ι → List (I × M) :=
  Function.update s.seen i ((messageId m, m) :: s.seen i)

def issue (s : Net ι M I) (i : ι) (m : M) (rest : List M) (peers : Finset ι) : Net ι M I :=
  { s with
    outbox := Function.update s.outbox i rest
    seen := s.remember messageId i m
    flights := s.flights ∪ peers.image fun j => (s.posts.length, j)
    posts := s.posts ++ [⟨i, m, peers⟩] }

def accept (s : Net ι M I) (k : ℕ) (j : ι) (m : M) : Net ι M I :=
  { s with
    flights := s.flights.erase (k, j)
    seen := s.remember messageId j m
    inbox := Function.update s.inbox j (s.inbox j ++ [k]) }

section Accounts

variable {messageId} {s : Net ι M I} {i j : ι} {k : ℕ} {m : M} {rest : List M}

theorem Accounted.issue (h : s.Accounted) (houtbox : s.outbox i = m :: rest) (peers : Finset ι) :
    (s.issue messageId i m rest peers).Accounted := by
  have hgrows : Grows s (s.issue messageId i m rest peers) :=
    { Grows.refl s with posts := List.prefix_append _ _ }
  have hlonger : s.posts.length ≤ (s.issue messageId i m rest peers).posts.length := hgrows.posts.length_le
  refine ⟨fun i' m₀ hsent => ?_, fun k post hpost j hj => ?_, fun j k hwaiting => ?_, fun p hp => ?_⟩
  · refine (h.messages i' m₀ hsent).mono hgrows fun hwaiting => ?_
    obtain hstays | ⟨rfl, rfl⟩ := mem_update_rest houtbox hwaiting
    · exact Or.inl hstays
    · exact Or.inr (Or.inl ⟨_, List.mem_append_right _ List.mem_cons_self, rfl, rfl⟩)
  · rcases Nat.lt_trichotomy k s.posts.length with hold | rfl | hbeyond
    · have hbefore : s.posts[k]? = some post := (List.getElem?_append_left hold).symm.trans hpost
      exact (h.copies k post hbefore j hj).mono hgrows
        (fun hflying => Or.inl (Finset.mem_union_left _ hflying))
        fun hwaiting => Or.inr (Or.inl hwaiting)
    · obtain rfl := Option.some.inj (List.getElem?_concat_length.symm.trans hpost)
      exact Or.inl (Finset.mem_union_right _ (Finset.mem_image_of_mem _ hj))
    · have hlength := (List.getElem?_eq_some_iff.mp hpost).1
      change k < (s.posts ++ [_]).length at hlength
      rw [List.length_append, List.length_singleton] at hlength
      omega
  · exact Nat.lt_of_lt_of_le (h.waiting j k hwaiting) hlonger
  · exact Nat.lt_of_lt_of_le (h.handled p hp) hlonger

theorem Accounted.accept (h : s.Accounted) {post : Post ι M} (hpost : s.posts[k]? = some post) :
    (s.accept messageId k j post.message).Accounted := by
  refine ⟨h.messages, fun k' post' hpost' j' hj' => ?_, fun j' k' hwaiting => ?_, h.handled⟩
  · refine (h.copies k' post' hpost' j' hj').mono { Grows.refl s with } (fun hflying => ?_) fun hwaiting => ?_
    · by_cases hthis : (k', j') = (k, j)
      · obtain ⟨rfl, rfl⟩ := Prod.mk.inj hthis
        refine Or.inr (Or.inl ?_)
        change k' ∈ Function.update s.inbox j' (s.inbox j' ++ [k']) j'
        rw [Function.update_self]
        exact List.mem_append_right _ List.mem_cons_self
      · exact Or.inl (Finset.mem_erase.mpr ⟨hthis, hflying⟩)
    · exact Or.inr (Or.inl (mem_update_append hwaiting))
  · rcases mem_of_mem_update hwaiting with hold | ⟨rfl, hnew⟩
    · exact h.waiting j' k' hold
    · rcases List.mem_append.mp hnew with hold | hthis
      · exact h.waiting j' k' hold
      · obtain rfl := List.mem_singleton.mp hthis
        exact (List.getElem?_eq_some_iff.mp hpost).1

end Accounts

variable [DecidableEq I]

def cached (s : Net ι M I) (i : ι) (m : M) : Option M := (s.seen i).lookup (messageId m)

def publish (s : Net ι M I) (i : ι) (peers : Finset ι) : Net ι M I :=
  match s.outbox i with
  | [] => s
  | m :: rest =>
    match s.cached messageId i m with
    | some m' => s.refuse i m m' rest
    | none => if peers.erase i = ∅ then s.withhold i m rest else s.issue messageId i m rest (peers.erase i)

def arrive (s : Net ι M I) (k : ℕ) (j : ι) : Net ι M I :=
  match s.posts[k]? with
  | none => s
  | some post =>
    if (k, j) ∈ s.flights then
      match s.cached messageId j post.message with
      | some m' => s.drop k j post.message m'
      | none => s.accept messageId k j post.message
    else s

def step (s : Net ι M I) : Op ι M I → Net ι M I
  | .send i messages => s.enqueue i messages
  | .publish i peers => s.publish messageId i peers
  | .arrive k j => s.arrive messageId k j
  | .handle j answers => s.handle j answers
  | .expire i keep => s.expire i keep
  | .restart i => s.restart i

def suppresses (s : Net ι M I) : Op ι M I → Option (Suppression ι M)
  | .publish i _ => (s.outbox i).head?.bind fun m => (s.cached messageId i m).map fun m' => ⟨i, none, m, m'⟩
  | .arrive k j =>
    if (k, j) ∈ s.flights then
      s.posts[k]?.bind fun post =>
        (s.cached messageId j post.message).map fun m' => ⟨j, some k, post.message, m'⟩
    else none
  | _ => none

section Steps

theorem publish_cases (s : Net ι M I) (i : ι) (peers : Finset ι) :
    s.publish messageId i peers = s ∧ s.outbox i = [] ∨ ∃ m rest, s.outbox i = m :: rest ∧
      ((∃ m', s.cached messageId i m = some m' ∧ s.publish messageId i peers = s.refuse i m m' rest) ∨
        s.cached messageId i m = none ∧ s.publish messageId i peers = s.withhold i m rest ∨
        s.cached messageId i m = none ∧ s.publish messageId i peers =
          s.issue messageId i m rest (peers.erase i)) := by
  cases houtbox : s.outbox i with
  | nil =>
    refine Or.inl ⟨?_, rfl⟩
    unfold publish
    rw [houtbox]
  | cons m rest =>
    refine Or.inr ⟨m, rest, rfl, ?_⟩
    unfold publish
    rw [houtbox]
    dsimp only
    cases hcached : s.cached messageId i m with
    | some m' => exact Or.inl ⟨m', rfl, rfl⟩
    | none =>
      dsimp only
      split
      · exact Or.inr (Or.inl ⟨rfl, rfl⟩)
      · exact Or.inr (Or.inr ⟨rfl, rfl⟩)

theorem arrive_cases (s : Net ι M I) (k : ℕ) (j : ι) :
    s.arrive messageId k j = s ∧ (s.posts[k]? = none ∨ (k, j) ∉ s.flights) ∨
      ∃ post, s.posts[k]? = some post ∧ (k, j) ∈ s.flights ∧
        ((∃ m', s.cached messageId j post.message = some m' ∧
            s.arrive messageId k j = s.drop k j post.message m') ∨
          s.cached messageId j post.message = none ∧
            s.arrive messageId k j = s.accept messageId k j post.message) := by
  unfold arrive
  cases hpost : s.posts[k]? with
  | none => exact Or.inl ⟨rfl, Or.inl rfl⟩
  | some post =>
    by_cases hflight : (k, j) ∈ s.flights
    · refine Or.inr ⟨post, rfl, hflight, ?_⟩
      dsimp only
      rw [if_pos hflight]
      cases hcached : s.cached messageId j post.message with
      | some m' => exact Or.inl ⟨m', rfl, rfl⟩
      | none => exact Or.inr ⟨rfl, rfl⟩
    · refine Or.inl ⟨?_, Or.inr hflight⟩
      dsimp only
      rw [if_neg hflight]

structure Extends (s s' : Net ι M I) (op : Op ι M I) : Prop where
  posts : s.posts <+: s'.posts
  sent : s.sent ⊆ s'.sent
  handled : ∀ p ∈ s'.handled, p ∈ s.handled ∨ (s.inbox p.2).head? = some p.1 ∧
    ∃ answers, op = .handle p.2 answers

theorem step_extends (s : Net ι M I) (op : Op ι M I) : Extends s (s.step messageId op) op := by
  have hsame : Extends s s op := ⟨List.prefix_rfl, List.Subset.refl _, fun p hp => Or.inl hp⟩
  cases op with
  | send i messages => exact { hsame with sent := List.subset_append_left _ _ }
  | publish i peers =>
    change Extends s (s.publish messageId i peers) _
    obtain ⟨hstays, _⟩ | ⟨m, rest, _, ⟨m', _, hrefused⟩ | ⟨_, hwithheld⟩ | ⟨_, hissued⟩⟩ :=
      s.publish_cases messageId i peers
    · rwa [hstays]
    · rw [hrefused]
      exact { hsame with }
    · rw [hwithheld]
      exact { hsame with }
    · rw [hissued]
      exact { hsame with posts := List.prefix_append _ _ }
  | arrive k j =>
    change Extends s (s.arrive messageId k j) _
    obtain ⟨hstays, _⟩ | ⟨post, _, _, ⟨m', _, hdropped⟩ | ⟨_, haccepted⟩⟩ := s.arrive_cases messageId k j
    · rwa [hstays]
    · rw [hdropped]
      exact { hsame with }
    · rw [haccepted]
      exact { hsame with }
  | handle j answers =>
    change Extends s (s.handle j answers) _
    obtain ⟨hstays, _⟩ | ⟨k, rest, hinbox, hhandled⟩ := s.handle_cases j answers
    · rwa [hstays]
    · rw [hhandled]
      refine { hsame with sent := List.subset_append_left _ _, handled := fun p hp => ?_ }
      rcases List.mem_append.mp hp with hold | hnew
      · exact Or.inl hold
      · obtain rfl := List.mem_singleton.mp hnew
        exact Or.inr ⟨by rw [hinbox, List.head?_cons], answers, rfl⟩
  | expire i keep => exact { hsame with }
  | restart i => exact { hsame with }

variable {messageId} {s : Net ι M I}

theorem Accounted.step (h : s.Accounted) (op : Op ι M I) : (s.step messageId op).Accounted := by
  cases op with
  | send i messages => exact h.enqueue i messages
  | publish i peers =>
    change (s.publish messageId i peers).Accounted
    obtain ⟨hsame, _⟩ | ⟨m, rest, houtbox, ⟨m', _, hrefused⟩ | ⟨_, hwithheld⟩ | ⟨_, hissued⟩⟩ :=
      s.publish_cases messageId i peers
    · rwa [hsame]
    · rw [hrefused]
      exact h.refuse houtbox m'
    · rw [hwithheld]
      exact h.withhold houtbox
    · rw [hissued]
      exact h.issue houtbox (peers.erase i)
  | arrive k j =>
    change (s.arrive messageId k j).Accounted
    obtain ⟨hsame, _⟩ | ⟨post, hpost, _, ⟨m', _, hdropped⟩ | ⟨_, haccepted⟩⟩ := s.arrive_cases messageId k j
    · rwa [hsame]
    · rw [hdropped]
      exact h.drop hpost m'
    · rw [haccepted]
      exact h.accept hpost
  | handle j answers =>
    change (s.handle j answers).Accounted
    obtain ⟨hsame, _⟩ | ⟨k, rest, hinbox, hhandled⟩ := s.handle_cases j answers
    · rwa [hsame]
    · rw [hhandled]
      exact (h.take hinbox).enqueue j answers
  | expire i keep => exact ⟨h.messages, h.copies, h.waiting, h.handled⟩
  | restart i => exact h.restart i

omit [DecidableEq I] in
theorem Labelled.remember (h : s.Labelled messageId) (i : ι) (m : M) :
    ∀ j, ∀ e ∈ s.remember messageId i m j, e.1 = messageId e.2 := by
  intro j e he
  rcases mem_of_mem_update he with hold | ⟨_, hnew⟩
  · exact h j e hold
  · rcases List.mem_cons.mp hnew with rfl | hold
    · rfl
    · exact h i e hold

theorem Labelled.step (h : s.Labelled messageId) (op : Op ι M I) :
    (s.step messageId op).Labelled messageId := by
  cases op with
  | send i messages => exact h
  | publish i peers =>
    change (s.publish messageId i peers).Labelled messageId
    obtain ⟨hsame, _⟩ | ⟨m, rest, _, ⟨m', _, hrefused⟩ | ⟨_, hwithheld⟩ | ⟨_, hissued⟩⟩ :=
      s.publish_cases messageId i peers
    · rwa [hsame]
    · rw [hrefused]
      exact h
    · rw [hwithheld]
      exact h
    · rw [hissued]
      exact h.remember i m
  | arrive k j =>
    change (s.arrive messageId k j).Labelled messageId
    obtain ⟨hsame, _⟩ | ⟨post, _, _, ⟨m', _, hdropped⟩ | ⟨_, haccepted⟩⟩ := s.arrive_cases messageId k j
    · rwa [hsame]
    · rw [hdropped]
      exact h
    · rw [haccepted]
      exact h.remember j post.message
  | handle j answers =>
    change (s.handle j answers).Labelled messageId
    obtain ⟨hsame, _⟩ | ⟨k, rest, _, hhandled⟩ := s.handle_cases j answers
    · rwa [hsame]
    · rw [hhandled]
      exact h
  | expire i keep =>
    intro j e he
    rcases mem_of_mem_update he with hold | ⟨_, hkept⟩
    · exact h j e hold
    · exact h i e (List.mem_of_mem_filter hkept)
  | restart i =>
    intro j e he
    rcases mem_of_mem_update he with hold | ⟨_, hnone⟩
    · exact h j e hold
    · exact absurd hnone List.not_mem_nil

omit [DecidableEq ι] in
theorem Labelled.cached (h : s.Labelled messageId) {i : ι} {m m' : M}
    (hcached : s.cached messageId i m = some m') :
    messageId m' = messageId m := by
  obtain ⟨before, after, hseen, _⟩ := List.lookup_eq_some_iff.mp hcached
  have hmem : (messageId m, m') ∈ s.seen i := by
    rw [hseen]
    exact List.mem_append_right _ List.mem_cons_self
  exact (h i _ hmem).symm

theorem step_suppressed (s : Net ι M I) (op : Op ι M I) :
    (s.step messageId op).suppressed = s.suppressed ++ (s.suppresses messageId op).toList := by
  cases op with
  | publish i peers =>
    change (s.publish messageId i peers).suppressed = _
    unfold suppresses
    dsimp only
    obtain ⟨hsame, houtbox⟩ |
        ⟨m, rest, houtbox, ⟨m', hcached, hrefused⟩ | ⟨hcached, hwithheld⟩ | ⟨hcached, hissued⟩⟩ :=
      s.publish_cases messageId i peers
    · rw [hsame, houtbox]
      exact (List.append_nil _).symm
    · rw [hrefused, houtbox, List.head?_cons, Option.bind_some, hcached]
      rfl
    · rw [hwithheld, houtbox, List.head?_cons, Option.bind_some, hcached]
      exact (List.append_nil _).symm
    · rw [hissued, houtbox, List.head?_cons, Option.bind_some, hcached]
      exact (List.append_nil _).symm
  | arrive k j =>
    change (s.arrive messageId k j).suppressed = _
    unfold suppresses
    dsimp only
    obtain ⟨hsame, hnone | hnone⟩ | ⟨post, hpost, hflight, ⟨m', hcached, hdropped⟩ | ⟨hcached, haccepted⟩⟩ :=
      s.arrive_cases messageId k j
    · rw [hsame, hnone, Option.bind_none, ite_self]
      exact (List.append_nil _).symm
    · rw [hsame, if_neg hnone]
      exact (List.append_nil _).symm
    · rw [hdropped, if_pos hflight, hpost, Option.bind_some, hcached]
      rfl
    · rw [haccepted, if_pos hflight, hpost, Option.bind_some, hcached]
      exact (List.append_nil _).symm
  | handle j answers =>
    change (s.handle j answers).suppressed = _
    obtain ⟨hsame, _⟩ | ⟨k, rest, _, hhandled⟩ := s.handle_cases j answers
    · rw [hsame]
      exact (List.append_nil _).symm
    · rw [hhandled]
      exact (List.append_nil _).symm
  | _ => exact (List.append_nil _).symm

theorem forall_step_suppressed (excused : M → M → Prop) (s : Net ι M I) (op : Op ι M I) :
    (∀ x ∈ (s.step messageId op).suppressed, excused x.cached x.message) ↔
      (∀ x ∈ s.suppressed, excused x.cached x.message) ∧
        ∀ x ∈ s.suppresses messageId op, excused x.cached x.message := by
  rw [step_suppressed, List.forall_mem_append]
  apply and_congr_right
  intro _
  cases s.suppresses messageId op with
  | none => exact iff_of_true (List.forall_mem_nil _) (by rintro x ⟨⟩)
  | some x =>
    rw [Option.toList_some, List.forall_mem_singleton]
    constructor
    · rintro hx y ⟨⟩
      exact hx
    · intro hall
      exact hall x rfl

omit [DecidableEq I] in
theorem handle_sent {j : ι} {k : ℕ} (hhead : (s.inbox j).head? = some k) (answers : List M) :
    (s.handle j answers).sent = s.sent ++ answers.map fun m => (j, m) := by
  obtain ⟨_, hinbox⟩ | ⟨k', rest, _, hhandled⟩ := s.handle_cases j answers
  · rw [hinbox] at hhead
    cases hhead
  · rw [hhandled]
    rfl

theorem publish_frame (s : Net ι M I) (i : ι) (peers : Finset ι) :
    (s.publish messageId i peers).sent = s.sent ∧ (s.publish messageId i peers).handled = s.handled := by
  obtain ⟨hsame, _⟩ | ⟨m, rest, _, ⟨m', _, hrefused⟩ | ⟨_, hwithheld⟩ | ⟨_, hissued⟩⟩ :=
    s.publish_cases messageId i peers
  · rw [hsame]
    exact ⟨rfl, rfl⟩
  · rw [hrefused]
    exact ⟨rfl, rfl⟩
  · rw [hwithheld]
    exact ⟨rfl, rfl⟩
  · rw [hissued]
    exact ⟨rfl, rfl⟩

theorem arrive_frame (s : Net ι M I) (k : ℕ) (j : ι) :
    (s.arrive messageId k j).sent = s.sent ∧ (s.arrive messageId k j).handled = s.handled := by
  obtain ⟨hsame, _⟩ | ⟨post, _, _, ⟨m', _, hdropped⟩ | ⟨_, haccepted⟩⟩ := s.arrive_cases messageId k j
  · rw [hsame]
    exact ⟨rfl, rfl⟩
  · rw [hdropped]
    exact ⟨rfl, rfl⟩
  · rw [haccepted]
    exact ⟨rfl, rfl⟩

structure Genuine (s : Net ι M I) : Prop where
  outbox : ∀ i, ∀ m ∈ s.outbox i, (i, m) ∈ s.sent
  posts : ∀ post ∈ s.posts, (post.source, post.message) ∈ s.sent

omit [DecidableEq ι] [DecidableEq I] in
theorem idle_genuine : (idle : Net ι M I).Genuine where
  outbox := by
    intro i m hwaiting
    exact absurd hwaiting List.not_mem_nil
  posts := by
    intro post hpost
    exact absurd hpost List.not_mem_nil

omit [DecidableEq I] in
theorem Genuine.enqueue (h : s.Genuine) (i : ι) (messages : List M) : (s.enqueue i messages).Genuine where
  outbox := by
    intro j m hwaiting
    rcases mem_of_mem_update hwaiting with hold | ⟨rfl, hnew⟩
    · exact List.mem_append_left _ (h.outbox j m hold)
    · rcases List.mem_append.mp hnew with hold | hadded
      · exact List.mem_append_left _ (h.outbox j m hold)
      · exact List.mem_append_right _ (List.mem_map_of_mem hadded)
  posts := by
    intro post hpost
    exact List.mem_append_left _ (h.posts post hpost)

omit [DecidableEq I] in
theorem Genuine.rest (h : s.Genuine) {i : ι} {m : M} {rest : List M} (houtbox : s.outbox i = m :: rest) :
    ∀ j, ∀ m' ∈ Function.update s.outbox i rest j, (j, m') ∈ s.sent := by
  intro j m' hwaiting
  rcases mem_of_mem_update hwaiting with hold | ⟨rfl, hrest⟩
  · exact h.outbox j m' hold
  · exact h.outbox j m' (houtbox ▸ List.mem_cons_of_mem m hrest)

theorem Genuine.step (h : s.Genuine) (op : Op ι M I) : (s.step messageId op).Genuine := by
  cases op with
  | send i messages => exact h.enqueue i messages
  | publish i peers =>
    change (s.publish messageId i peers).Genuine
    obtain ⟨hsame, _⟩ | ⟨m, rest, houtbox, ⟨m', _, hrefused⟩ | ⟨_, hwithheld⟩ | ⟨_, hissued⟩⟩ :=
      s.publish_cases messageId i peers
    · rwa [hsame]
    · rw [hrefused]
      exact ⟨h.rest houtbox, h.posts⟩
    · rw [hwithheld]
      exact ⟨h.rest houtbox, h.posts⟩
    · rw [hissued]
      refine ⟨h.rest houtbox, fun post hpost => ?_⟩
      rcases List.mem_append.mp hpost with hold | hnew
      · exact h.posts post hold
      · obtain rfl := List.mem_singleton.mp hnew
        exact h.outbox i m (houtbox ▸ List.mem_cons_self)
  | arrive k j =>
    change (s.arrive messageId k j).Genuine
    obtain ⟨hsame, _⟩ | ⟨post, _, _, ⟨m', _, hdropped⟩ | ⟨_, haccepted⟩⟩ := s.arrive_cases messageId k j
    · rwa [hsame]
    · rw [hdropped]
      exact ⟨h.outbox, h.posts⟩
    · rw [haccepted]
      exact ⟨h.outbox, h.posts⟩
  | handle j answers =>
    change (s.handle j answers).Genuine
    obtain ⟨hsame, _⟩ | ⟨k, rest, _, hhandled⟩ := s.handle_cases j answers
    · rwa [hsame]
    · have htaken : (s.take j k rest).Genuine := ⟨h.outbox, h.posts⟩
      rw [hhandled]
      exact htaken.enqueue j answers
  | expire i keep => exact ⟨h.outbox, h.posts⟩
  | restart i =>
    refine ⟨fun j m hwaiting => ?_, h.posts⟩
    rcases mem_of_mem_update hwaiting with hold | ⟨_, hnone⟩
    · exact h.outbox j m hold
    · exact absurd hnone List.not_mem_nil

end Steps

end Net

end Library.Gossip
