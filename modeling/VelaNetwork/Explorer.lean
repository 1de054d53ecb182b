import VelaNetwork.Library.JavaScript
import VelaNetwork.Queries
import VelaNetwork.Replay

namespace VelaNetwork

open Library.JavaScript
open Library.Runs

variable (P : Primitives)

/-- `Path<u64>`: a sign and leading zeros are taken. -/
def parseU64 (segment : List Char) : Option UInt64 :=
  let digits := match segment with
    | '+' :: rest => rest
    | _ => segment
  if digits.isEmpty ∨ digits.any (fun c => !c.isDigit) then none
  else
    let n := Nat.ofDigitChars 10 digits 0
    if n < 2 ^ 64 then some (UInt64.ofNat n) else none

namespace Explorer

/-- `fetch('/block/' + h)`; `none` when there is no JSON in the answer. -/
def fetchBlock (s : NodeState) (h : ℕ) : Option (Except RpcError BlockResponse) :=
  (parseU64 (Nat.toDigits 10 h)).map (getBlock P s)

/-- The loop of `refresh`: `fetch` is asked for the `k`-th time for height `h`, and what it throws is
dropped. -/
def refresh (height : SafeInteger) (fetch : ℕ → ℕ → Option (Except RpcError BlockResponse)) :
    List (Except RpcError BlockResponse) :=
  let start := height.value - 9
  (List.range (height.value + 1 - start)).filterMap fun k => fetch k (height.value - k)

end Explorer

section Paths

theorem parseU64_toDigits {h : ℕ} (hh : h < 2 ^ 64) :
    parseU64 (Nat.toDigits 10 h) = some (UInt64.ofNat h) := by
  have hdigit : ∀ c ∈ Nat.toDigits 10 h, c.isDigit = true := fun c hc =>
    Nat.isDigit_of_mem_toDigits (by decide) (by decide) hc
  have hunsigned : (match Nat.toDigits 10 h with
      | '+' :: rest => rest
      | _ => Nat.toDigits 10 h) = Nat.toDigits 10 h := by
    split
    · rename_i rest hplus
      have hsign := hdigit '+' (hplus ▸ List.mem_cons_self)
      exact absurd hsign (by decide)
    · rfl
  have hall : ¬ ((Nat.toDigits 10 h).isEmpty = true ∨
      (Nat.toDigits 10 h).any (fun c => !c.isDigit) = true) := by
    rintro (hempty | hany)
    · exact Nat.toDigits_ne_nil (List.isEmpty_iff.mp hempty)
    · obtain ⟨c, hc, hnot⟩ := List.any_eq_true.mp hany
      rw [hdigit c hc] at hnot
      cases hnot
  have hvalue : Nat.ofDigitChars 10 (Nat.toDigits 10 h) 0 = h :=
    Nat.ofDigitChars_toDigits (by decide) (by decide)
  unfold parseU64
  rw [hunsigned]
  dsimp only
  rw [if_neg hall, hvalue, if_pos hh]

end Paths

section Chains

variable {P} {base chain : List Block}

theorem find_height (h : Contiguous base) (hbegins : base <+: chain) {k : ℕ} (hk : k < base.length)
    (hlen : k < 2 ^ 64) :
    chain.find? (fun b => b.header.height = UInt64.ofNat k) = some base[k] := by
  obtain ⟨rest, rfl⟩ := hbegins
  have hheight : ∀ j (hj : j < base.length), base[j].header.height = UInt64.ofNat k ↔ j = k := by
    intro j hj
    rw [← UInt64.toNat_inj, h j hj, UInt64.toNat_ofNat_of_lt' hlen]
  rw [List.find?_append, List.find?_eq_some_iff_getElem.mpr ⟨?_, k, hk, rfl, fun j hj => ?_⟩]
  · rfl
  · rw [decide_eq_true_eq, hheight k hk]
  · rw [Bool.not_eq_true', decide_eq_false_iff_not, hheight j (Nat.lt_trans hj hk)]
    exact Nat.ne_of_lt hj

theorem find_above (h : Contiguous base) {height : UInt64} (hheight : base.length ≤ height.toNat) :
    base.find? (fun b => b.header.height = height) = none := by
  rw [List.find?_eq_none]
  intro b hb
  obtain ⟨k, hk, rfl⟩ := List.mem_iff_getElem.mp hb
  rw [decide_eq_true_eq, ← UInt64.toNat_inj, h k hk]
  omega

end Chains

namespace Node

variable {P} {n : Node}

theorem chain_prefix_run {es : List Event} (hes : ∀ e ∈ es, e.isRestart = false) :
    n.state.blocks <+: (run (step P) n es).state.blocks := by
  induction es generalizing n with
  | nil => exact List.prefix_rfl
  | cons e es ih =>
    have hstep : n.state.blocks <+: (n.step P e).state.blocks := by
      rw [(step_grows P n (hes e List.mem_cons_self)).chain]
      exact List.prefix_append _ _
    exact hstep.trans (ih fun e' he' => hes e' (List.mem_cons_of_mem _ he'))

theorem contiguous_run {es : List Event} (hes : ∀ e ∈ es, e.isRestart = false) (hne : n.state.blocks ≠ [])
    (h : Contiguous n.state.blocks) (hlen : (run (step P) n es).state.blocks.length ≤ 2 ^ 64) :
    Contiguous (run (step P) n es).state.blocks := by
  induction es generalizing n with
  | nil => exact h
  | cons e es ih =>
    have hrest : ∀ e' ∈ es, e'.isRestart = false := fun e' he' => hes e' (List.mem_cons_of_mem _ he')
    have hchain := (step_grows P n (hes e List.mem_cons_self)).chain
    have hbound := Nat.le_trans (chain_prefix_run (n := n.step P e) hrest).length_le hlen
    rw [hchain] at hbound
    obtain ⟨tip, htip, hfollows⟩ := tip_follows P hne e
    refine ih hrest ?_ ?_ hlen
    · rw [hchain]
      exact List.append_ne_nil_of_left_ne_nil hne _
    · rw [hchain]
      exact contiguous_append h htip hfollows hbound

end Node

namespace Explorer

variable {P}

theorem fetchBlock_eq {s : NodeState} {base : List Block} (h : Contiguous base)
    (hbegins : base <+: s.blocks) {k : ℕ} (hk : k < base.length) (hlen : k < 2 ^ 64) :
    fetchBlock P s k = some (.ok (blockResponse P base[k])) := by
  unfold fetchBlock getBlock
  rw [parseU64_toDigits hlen, Option.map_some, find_height h hbegins hk hlen]

theorem filterMap_range {α : Type*} {f : ℕ → Option α} {m n : ℕ} (hmn : m ≤ n)
    (hnone : ∀ k, m ≤ k → k < n → f k = none) :
    (List.range n).filterMap f = (List.range m).filterMap f := by
  obtain ⟨d, rfl⟩ := Nat.exists_eq_add_of_le hmn
  have hrest : ((List.range d).map (m + ·)).filterMap f = [] := by
    rw [List.filterMap_eq_nil_iff]
    intro k hk
    obtain ⟨j, hj, rfl⟩ := List.mem_map.mp hk
    exact hnone _ (Nat.le_add_right m j) (Nat.add_lt_add_left (List.mem_range.mp hj) m)
  rw [List.range_add, List.filterMap_append, hrest, List.append_nil]

theorem refresh_eq {height : SafeInteger} {chain : List Block} (hheight : height.value + 1 = chain.length)
    {fetch : ℕ → ℕ → Option (Except RpcError BlockResponse)}
      (card : ℕ → Block → Option (Except RpcError BlockResponse))
    (hfetch : ∀ k h (hh : h < chain.length), fetch k h = card k chain[h]) :
    refresh height fetch = (List.range 10).filterMap fun k => chain.reverse[k]?.bind (card k) := by
  have hcount : height.value + 1 - (height.value - 9) ≤ 10 := by omega
  unfold refresh
  dsimp only
  rw [filterMap_range hcount]
  · apply List.filterMap_congr
    intro k hk
    rw [List.mem_range] at hk
    have hlast : height.value - k < chain.length := by omega
    have hback : chain.length - 1 - k = height.value - k := by omega
    rw [hfetch k _ hlast, List.getElem?_reverse (by omega), List.getElem?_eq_getElem (by omega),
      Option.bind_some]
    simp only [hback]
  · intro k hk hten
    rw [List.getElem?_eq_none (by rw [List.length_reverse]; omega), Option.bind_none]

/-- The page of a node that goes on meanwhile: the `k`-th request is answered after the events `later k`, and
is lost where there are none. -/
theorem explorer_shows_last_ten (P : Primitives) {saved : Bool} {i : Fin 3} {n : Node}
    (hstart : Node.start P saved i .empty = some n) (es : List Event) (hes : ∀ e ∈ es, e.isRestart = false)
    (hlen : (run (Node.step P) n es).state.blocks.length ≤ 2 ^ 64) (port : UInt16) (peerCount : ℕ)
    {height : SafeInteger}
    (hheight : height.value = (getStatus port peerCount (run (Node.step P) n es).state).blockHeight.toNat)
    {later : ℕ → Option (List Event)} (hlater : ∀ k, ∀ es' ∈ later k, ∀ e ∈ es', e.isRestart = false) :
    refresh height (fun k h => (later k).bind fun es' =>
        fetchBlock P (run (Node.step P) (run (Node.step P) n es) es').state h) =
        (List.range 10).filterMap (fun k => (run (Node.step P) n es).state.blocks.reverse[k]?.bind fun b =>
          (later k).map fun _ => .ok (blockResponse P b)) ∧
      ∀ h, getBlock P (run (Node.step P) n es).state h =
        match (run (Node.step P) n es).state.blocks[h.toNat]? with
        | some b => .ok (blockResponse P b)
        | none => .error ⟨.notFound, s!"Block {h} not found"⟩ := by
  obtain ⟨db, _, rfl⟩ := Node.start_empty hstart
  have hchain := Node.contiguous_run hes (List.cons_ne_nil _ _) contiguous_genesis hlen
  have hne : (run (Node.step P) (Node.boot P i db [Block.genesis]) es).state.blocks ≠ [] := by
    intro hnil
    have hbegins := Node.chain_prefix_run (P := P) (n := Node.boot P i db [Block.genesis]) hes
    rw [hnil, List.prefix_nil] at hbegins
    exact absurd hbegins (List.cons_ne_nil _ _)
  generalize run (Node.step P) (Node.boot P i db [Block.genesis]) es = shown at hchain hne hheight hlen ⊢
  constructor
  · obtain ⟨tip, htip⟩ := Option.isSome_iff_exists.mp (List.getLast?_isSome.mpr hne)
    have hlast : (getStatus port peerCount shown.state).blockHeight.toNat + 1 =
        shown.state.blocks.length := by
      rw [show (getStatus port peerCount shown.state).blockHeight = shown.tipHeight from rfl,
        Node.tipHeight_eq htip, hchain.last htip]
    rw [← hheight] at hlast
    refine refresh_eq hlast (fun k b => (later k).map fun _ => .ok (blockResponse P b)) fun k h hh => ?_
    cases hk : later k with
    | none => rfl
    | some es' =>
      have hbegins := Node.chain_prefix_run (P := P) (n := shown) (hlater k es' hk)
      exact fetchBlock_eq hchain hbegins hh (Nat.lt_of_lt_of_le hh hlen)
  · intro h
    unfold getBlock
    by_cases hh : h.toNat < shown.state.blocks.length
    · have hfound := find_height hchain List.prefix_rfl hh h.toNat_lt
      rw [UInt64.ofNat_toNat] at hfound
      rw [hfound, List.getElem?_eq_getElem hh]
    · rw [find_above hchain (Nat.le_of_not_lt hh), List.getElem?_eq_none (Nat.le_of_not_lt hh)]

noncomputable def leader : Node :=
  run (Node.step .sample) (Node.fresh .sample 1) [.startProducer, .tick 10 true]

theorem explorer_shows_last_ten_leader :
    refresh ⟨1, by decide⟩ (fun k h => (if k = 0 then none else some [Event.tick 20 true]).bind fun es' =>
        fetchBlock .sample (run (Node.step .sample) leader es').state h) =
      (List.range 10).filterMap (fun k => leader.state.blocks.reverse[k]?.bind fun b =>
        (if k = 0 then none else some [Event.tick 20 true]).map fun _ => .ok (blockResponse .sample b)) ∧
      ∀ h, getBlock .sample leader.state h = match leader.state.blocks[h.toNat]? with
        | some b => .ok (blockResponse .sample b)
        | none => .error ⟨.notFound, s!"Block {h} not found"⟩ := by
  refine explorer_shows_last_ten .sample (Node.start_fresh sample_roundTrips 1)
    [.startProducer, .tick 10 true]
    (by decide) (by decide +kernel) 9000 0 (by decide +kernel) fun k es' hes' e he => ?_
  split at hes'
  · cases hes'
  · cases hes'
    rw [List.mem_singleton.mp he]
    rfl

end Explorer

end VelaNetwork
