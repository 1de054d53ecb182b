import VelaNetwork.Library.Gossip
import Mathlib.Algebra.BigOperators.Group.Finset.Basic
import Mathlib.Algebra.GroupWithZero.Nat
import Mathlib.Algebra.Order.BigOperators.Group.Finset
import Mathlib.Data.Fintype.BigOperators

namespace Library

namespace Runs

variable {σ ε : Type*} {step : σ → ε → σ}

end Runs

namespace Gossip

namespace Net

variable {ι M I : Type*} (w : M → ℕ) (d : ℕ)

def weight (messages : List M) : ℕ := (messages.map w).sum

def postWeight (s : Net ι M I) (k : ℕ) : ℕ := (s.posts[k]?.map fun post => w post.message).getD 0

def flightWeight (s : Net ι M I) : ℕ := ∑ p ∈ s.flights, s.postWeight w p.1

structure Grounded (s : Net ι M I) : Prop where
  flights : ∀ p ∈ s.flights, p.1 < s.posts.length
  waiting : ∀ j, ∀ k ∈ s.inbox j, k < s.posts.length

section Load

variable [Fintype ι]

def queued (s : Net ι M I) : ℕ := ∑ i, weight w (s.outbox i)

def waitingWeight (s : Net ι M I) : ℕ := ∑ j, weight (s.postWeight w) (s.inbox j)

/-- What the messages that are under way may still cost, when a message that is published goes to at most `d`
peers. -/
def load (s : Net ι M I) : ℕ := d * s.queued w + s.flightWeight w + s.waitingWeight w

variable [DecidableEq ι]

variable {w d} {s : Net ι M I} {i j : ι} {k : ℕ} {m : M} {rest : List M}

end Load

section Steps

variable {s : Net ι M I}

theorem Grounded.mono {s' : Net ι M I} (h : s.Grounded) (hposts : s.posts.length ≤ s'.posts.length)
    (hflights : ∀ p ∈ s'.flights, p ∈ s.flights ∨ p.1 < s'.posts.length)
    (hwaiting : ∀ j, ∀ k ∈ s'.inbox j, k ∈ s.inbox j ∨ k < s'.posts.length) : s'.Grounded where
  flights p hp := (hflights p hp).elim (fun hold => Nat.lt_of_lt_of_le (h.flights p hold) hposts) id
  waiting j k hk := (hwaiting j k hk).elim (fun hold => Nat.lt_of_lt_of_le (h.waiting j k hold) hposts) id

variable [DecidableEq ι] [DecidableEq I] {messageId : M → I}

theorem Grounded.step (h : s.Grounded) (op : Op ι M I) : (s.step messageId op).Grounded := by
  cases op with
  | send i messages => exact ⟨h.flights, h.waiting⟩
  | publish i peers =>
    change (s.publish messageId i peers).Grounded
    obtain ⟨hsame, _⟩ | ⟨m, rest, _, ⟨m', _, hrefused⟩ | ⟨_, hwithheld⟩ | ⟨_, hissued⟩⟩ :=
      s.publish_cases messageId i peers
    · rwa [hsame]
    · rw [hrefused]
      exact ⟨h.flights, h.waiting⟩
    · rw [hwithheld]
      exact ⟨h.flights, h.waiting⟩
    · rw [hissued]
      have hlength : (s.issue messageId i m rest (peers.erase i)).posts.length = s.posts.length + 1 :=
        List.length_append
      refine h.mono (by omega) (fun p hp => ?_) fun j k hk => Or.inl hk
      rcases Finset.mem_union.mp hp with hold | hnew
      · exact Or.inl hold
      · obtain ⟨_, _, rfl⟩ := Finset.mem_image.mp hnew
        exact Or.inr (by omega)
  | arrive k j =>
    change (s.arrive messageId k j).Grounded
    obtain ⟨hsame, _⟩ | ⟨post, _, hflight, ⟨m', _, hdropped⟩ | ⟨_, haccepted⟩⟩ := s.arrive_cases messageId k j
    · rwa [hsame]
    · rw [hdropped]
      exact h.mono (Nat.le_refl _) (fun p hp => Or.inl (Finset.mem_of_mem_erase hp)) fun _ _ hk => Or.inl hk
    · rw [haccepted]
      refine h.mono (Nat.le_refl _) (fun p hp => Or.inl (Finset.mem_of_mem_erase hp)) fun j' k' hk => ?_
      rcases mem_of_mem_update hk with hold | ⟨rfl, hnew⟩
      · exact Or.inl hold
      · rcases List.mem_append.mp hnew with hold | hthis
        · exact Or.inl hold
        · obtain rfl := List.mem_singleton.mp hthis
          exact Or.inr (h.flights _ hflight)
  | handle j answers =>
    change (s.handle j answers).Grounded
    obtain ⟨hsame, _⟩ | ⟨k, rest, hinbox, hhandled⟩ := s.handle_cases j answers
    · rwa [hsame]
    · rw [hhandled]
      refine h.mono (Nat.le_refl _) (fun p hp => Or.inl hp) fun j' k' hk => ?_
      rcases mem_of_mem_update hk with hold | ⟨rfl, hrest⟩
      · exact Or.inl hold
      · exact Or.inl (hinbox ▸ List.mem_cons_of_mem k hrest)
  | expire i keep => exact ⟨h.flights, h.waiting⟩
  | restart i =>
    refine h.mono (Nat.le_refl _) (fun p hp => Or.inl hp) fun j k hk => ?_
    rcases mem_of_mem_update hk with hold | ⟨_, hnone⟩
    · exact Or.inl hold
    · exact absurd hnone List.not_mem_nil

variable [Fintype ι] {w : M → ℕ} {d : ℕ}

end Steps

end Net

end Gossip

end Library
