import VelaNetwork.Pool
import VelaNetwork.Sample
import Mathlib.Logic.Function.Basic

namespace VelaNetwork

open Library.Runs

variable (P : Primitives)

structure Grant where
  account : Address
  stamp : UInt64

structure FaucetPass where
  address : String
  account : Address
  reading : UInt64

def RpcTask.recipient : RpcTask → Option Address
  | .faucetNonce _ recipient => some recipient
  | .faucetMark _ tx => some tx.to
  | _ => none

def RpcProgress.recipient : RpcProgress → Option Address
  | .running task => task.recipient
  | .finished _ => none

def RpcTask.pass (now : Clock) (s : NodeState) : RpcTask → Option FaucetPass
  | .faucetCheck address =>
    match faucetCooldown now.secs s address, faucetRecipient address with
    | .ok _, .ok account => some ⟨address, account, now.secs⟩
    | _, _ => none
  | _ => none

def RpcTask.grant (now : Clock) : RpcTask → Option Grant
  | .faucetMark _ tx => some ⟨tx.to, now.secs⟩
  | _ => none

namespace Node

def granting (n : Node) : List Address := n.rpc.filterMap RpcTask.recipient

def pass (n : Node) : Event → Option FaucetPass
  | .rpc i now => n.rpc[i]?.bind (RpcTask.pass now n.state)
  | _ => none

def grant (n : Node) : Event → Option Grant
  | .rpc i now => n.rpc[i]?.bind (RpcTask.grant now)
  | _ => none

inductive GrantStep (n : Node) (e : Event) : Prop where
  | kept (hgranting : ((n.step P e).granting).Sublist n.granting) (hpass : n.pass e = none)
      (hgrant : n.grant e = none)
  | passed (p : FaucetPass) (before after : List Address) (hold : n.granting = before ++ after)
      (hnew : (n.step P e).granting = before ++ p.account :: after) (hpass : n.pass e = some p)
        (hgrant : n.grant e = none)
  | granted (g : Grant) (before after : List Address) (hold : n.granting = before ++ g.account :: after)
      (hnew : (n.step P e).granting = before ++ after) (hpass : n.pass e = none) (hgrant : n.grant e = some g)

section Steps

variable {P}

theorem filterMap_split {α β : Type} (f : α → Option β) {l : List α} {i : ℕ} {y : α} (h : l[i]? = some y) :
    ∃ before after, l.filterMap f = before ++ (f y).toList ++ after ∧
      (∀ x, (l.set i x).filterMap f = before ++ (f x).toList ++ after) ∧
        (l.eraseIdx i).filterMap f = before ++ after := by
  obtain ⟨hi, rfl⟩ := List.getElem?_eq_some_iff.mp h
  refine ⟨(l.take i).filterMap f, (l.drop (i + 1)).filterMap f, ?_, ?_, ?_⟩
  · conv_lhs => rw [← List.take_append_drop i l, List.drop_eq_getElem_cons hi]
    rw [List.filterMap_append, List.filterMap_cons]
    cases f l[i] <;> simp
  · intro x
    rw [List.set_eq_take_append_cons_drop, if_pos hi, List.filterMap_append, List.filterMap_cons]
    cases f x <;> simp
  · rw [List.eraseIdx_eq_take_drop_succ, List.filterMap_append]

theorem granting_rpc {n : Node} {i : ℕ} {task : RpcTask} (htask : n.rpc[i]? = some task) (now : Clock) :
    ∃ before after, n.granting = before ++ task.recipient.toList ++ after ∧ (n.step P (.rpc i now)).granting =
      before ++ (task.advance P now n.state).2.1.recipient.toList ++ after := by
  obtain ⟨before, after, hold, hset, herase⟩ := filterMap_split RpcTask.recipient htask
  refine ⟨before, after, hold, ?_⟩
  change ((n.advanceRpc P now i).1.rpc).filterMap RpcTask.recipient = _
  unfold advanceRpc
  rw [htask]
  dsimp only
  split
  · rename_i heq
    rw [heq]
    exact hset _
  · rename_i heq
    rw [heq]
    simpa [RpcProgress.recipient] using herase

theorem advance_recipient {task : RpcTask} {now : Clock} {s : NodeState} (hpass : task.pass now s = none)
    (hgrant : task.grant now = none) : (task.advance P now s).2.1.recipient = task.recipient := by
  cases task with
  | faucetCheck address =>
    unfold RpcTask.pass at hpass
    unfold RpcTask.advance
    dsimp only at hpass ⊢
    split
    · rfl
    · rename_i hcooldown
      rw [hcooldown] at hpass
      split
      · rfl
      · rename_i hrecipient
        rw [hrecipient] at hpass
        cases hpass
  | faucetNonce address recipient => rfl
  | faucetMark address tx => cases hgrant
  | sendTxCheck req =>
    unfold RpcTask.advance
    dsimp only
    split <;> rfl
  | sendTxDuplicate tx =>
    unfold RpcTask.advance
    dsimp only
    split <;> rfl
  | push tx => rfl
  | broadcast tx => rfl

theorem pass_eq {task : RpcTask} {now : Clock} {s : NodeState} {p : FaucetPass}
    (h : task.pass now s = some p) :
    task = .faucetCheck p.address ∧ p.reading = now.secs ∧ faucetCooldown now.secs s p.address = .ok () ∧
      faucetRecipient p.address = .ok p.account := by
  cases task with
  | faucetCheck address =>
    unfold RpcTask.pass at h
    dsimp only at h
    split at h
    · rename_i hcooldown hrecipient
      obtain rfl := Option.some.inj h
      exact ⟨rfl, rfl, hcooldown, hrecipient⟩
    · cases h
  | _ => cases h

theorem grantStep_of_rpc_eq {n : Node} {e : Event} (hrpc : (n.step P e).rpc = n.rpc) (hpass : n.pass e = none)
    (hgrant : n.grant e = none) : n.GrantStep P e := by
  refine .kept ?_ hpass hgrant
  rw [granting, hrpc]
  exact List.Sublist.refl _

theorem grantStep_rpc (n : Node) (i : ℕ) (now : Clock) : n.GrantStep P (.rpc i now) := by
  have hpass : n.pass (.rpc i now) = n.rpc[i]?.bind (RpcTask.pass now n.state) := rfl
  have hgrant : n.grant (.rpc i now) = n.rpc[i]?.bind (RpcTask.grant now) := rfl
  obtain ⟨htask, hsame⟩ | ⟨task, _, htask, _, _⟩ := step_rpc P n i now
  · rw [htask] at hpass hgrant
    exact grantStep_of_rpc_eq (by rw [hsame]) hpass hgrant
  · obtain ⟨before, after, hold, hnew⟩ := granting_rpc (P := P) htask now
    rw [htask] at hpass hgrant
    cases hg : task.grant now with
    | some g =>
      cases task with
      | faucetMark address tx =>
        obtain rfl := Option.some.inj hg
        refine .granted _ before after ?_ ?_ hpass hgrant
        · rw [hold]
          exact List.append_assoc before [tx.to] after
        · rw [hnew]
          exact congrArg (· ++ after) (List.append_nil before)
      | _ => cases hg
    | none =>
      cases hp : task.pass now n.state with
      | some p =>
        obtain ⟨rfl, _, hcooldown, hrecipient⟩ := pass_eq hp
        refine .passed p before after ?_ ?_ (hpass.trans hp) (hgrant.trans hg)
        · rw [hold]
          exact congrArg (· ++ after) (List.append_nil before)
        · rw [hnew, RpcTask.advance, hcooldown, hrecipient]
          exact List.append_assoc before [p.account] after
      | none =>
        refine .kept ?_ (hpass.trans hp) (hgrant.trans hg)
        rw [hnew, advance_recipient hp hg, ← hold]

theorem grantStep (n : Node) (e : Event) : n.GrantStep P e := by
  cases e with
  | message msg order saves => exact grantStep_of_rpc_eq (message_pool msg order saves n).1 rfl rfl
  | requestSync =>
    apply grantStep_of_rpc_eq _ rfl rfl
    rw [step_requestSync]
  | startProducer =>
    obtain ⟨round, hround⟩ := step_startProducer P n
    apply grantStep_of_rpc_eq _ rfl rfl
    rw [hround]
  | tick now saved =>
    apply grantStep_of_rpc_eq _ rfl rfl
    change (n.tick P now saved).1.rpc = n.rpc
    obtain ⟨_, round, htick⟩ | ⟨round, tip, _, _, _, _, htick⟩ := tick_cases P n now saved
    · rw [htick]
    · rw [htick]; rfl
  | request req =>
    refine .kept ?_ rfl rfl
    change ((n.rpc ++ [req.task]).filterMap RpcTask.recipient).Sublist _
    rw [List.filterMap_append]
    cases req <;> exact (List.append_nil _).symm ▸ List.Sublist.refl _
  | rpc i now => exact grantStep_rpc n i now
  | restart saved =>
    obtain hsame | ⟨db, blocks, hboot⟩ := restart_boot (P := P) n saved
    · exact grantStep_of_rpc_eq (by rw [hsame]) rfl rfl
    · refine .kept ?_ rfl rfl
      rw [hboot]
      exact List.nil_sublist _

theorem pass_check {n : Node} {e : Event} {p : FaucetPass} (h : n.pass e = some p) :
    n.state.worldState.canFaucet p.reading p.address = true := by
  cases e with
  | rpc i now =>
    change n.rpc[i]?.bind (RpcTask.pass now n.state) = some p at h
    obtain ⟨task, _, htask⟩ := Option.bind_eq_some_iff.mp h
    obtain ⟨_, hreading, hcooldown, _⟩ := pass_eq htask
    rw [hreading]
    unfold faucetCooldown at hcooldown
    split at hcooldown
    · assumption
    · cases hcooldown
  | _ => cases h

end Steps

end Node

/-- A node with what its faucet has granted, and when the last request for an account has passed the check. -/
structure Faucet where
  node : Node
  grants : List Grant
  checkedAt : Address → UInt64

namespace Faucet

def step (s : Faucet) (e : Event) : Faucet where
  node := s.node.step P e
  grants := s.grants ++ (s.node.grant e).toList
  checkedAt := match s.node.pass e with
    | some p => Function.update s.checkedAt p.account p.reading
    | none => s.checkedAt

def Apart (g g' : Grant) : Prop := g.account = g'.account →
  g.stamp.toNat + FAUCET_COOLDOWN_SECS.toNat ≤ g'.stamp.toNat ∨
    g'.stamp.toNat + FAUCET_COOLDOWN_SECS.toNat ≤ g.stamp.toNat

def CooledDown (s : Faucet) : Prop := s.grants.Pairwise Apart

/-- The grant is a day old, or what is recorded under the very string of the request is not older than it
and not ahead of the clock. -/
def Covered (s : Faucet) (p : FaucetPass) (g : Grant) : Prop :=
  g.stamp.toNat + FAUCET_COOLDOWN_SECS.toNat ≤ p.reading.toNat ∨
    ∃ last ∈ s.node.state.worldState.faucetLast.lookup p.address, g.stamp ≤ last ∧ last ≤ p.reading

/-- When a request passes the check, no other one for its account is about to be granted and all its
earlier grants are covered; when it is granted, the clock has not gone back since. -/
structure InTurn (s : Faucet) (e : Event) : Prop where
  alone : ∀ p ∈ s.node.pass e, p.account ∉ s.node.granting
  covered : ∀ p ∈ s.node.pass e, ∀ g ∈ s.grants, g.account = p.account → s.Covered p g
  forward : ∀ g ∈ s.node.grant e, s.checkedAt g.account ≤ g.stamp

structure Orderly (s : Faucet) : Prop where
  alone : s.node.granting.Nodup
  rested : ∀ account ∈ s.node.granting, ∀ g ∈ s.grants, g.account = account →
    g.stamp.toNat + FAUCET_COOLDOWN_SECS.toNat ≤ (s.checkedAt account).toNat
  cooledDown : s.CooledDown

variable {P} {s : Faucet}

theorem rested_of_covered {p : FaucetPass} {g : Grant} (h : s.Covered p g)
    (hcheck : s.node.state.worldState.canFaucet p.reading p.address = true) :
    g.stamp.toNat + FAUCET_COOLDOWN_SECS.toNat ≤ p.reading.toNat := by
  rcases h with hold | ⟨last, hlast, hrecorded, hclock⟩
  · exact hold
  · unfold WorldState.canFaucet at hcheck
    rw [hlast] at hcheck
    have hnat := UInt64.le_iff_toNat_le.mp (of_decide_eq_true hcheck)
    rw [UInt64.toNat_sub_of_le _ _ hclock] at hnat
    have hrecorded' := UInt64.le_iff_toNat_le.mp hrecorded
    have hclock' := UInt64.le_iff_toNat_le.mp hclock
    have hday : FAUCET_COOLDOWN_SECS.toNat = 86400 := rfl
    omega

theorem step_grants_of_none {e : Event} (h : s.node.grant e = none) : (s.step P e).grants = s.grants := by
  change s.grants ++ (s.node.grant e).toList = s.grants
  rw [h]
  exact List.append_nil s.grants

theorem step_checkedAt_of_none {e : Event} (h : s.node.pass e = none) :
    (s.step P e).checkedAt = s.checkedAt := by
  unfold Faucet.step
  rw [h]

theorem Orderly.step (h : s.Orderly) {e : Event} (he : s.InTurn e) : (s.step P e).Orderly := by
  cases s.node.grantStep (P := P) e with
  | kept hgranting hpass hgrant =>
    have hgrants : (s.step P e).grants = s.grants := step_grants_of_none hgrant
    have hchecked : (s.step P e).checkedAt = s.checkedAt := step_checkedAt_of_none hpass
    refine ⟨h.alone.sublist hgranting, ?_, ?_⟩
    · rw [hgrants, hchecked]
      exact fun account haccount => h.rested account (hgranting.subset haccount)
    · rw [CooledDown, hgrants]
      exact h.cooledDown
  | passed p before after hold hnew hpass hgrant =>
    have hgrants : (s.step P e).grants = s.grants := step_grants_of_none hgrant
    have hchecked : (s.step P e).checkedAt = Function.update s.checkedAt p.account p.reading := by
      unfold Faucet.step
      rw [hpass]
    have hnot := he.alone p hpass
    have halone := h.alone
    rw [hold] at hnot halone
    refine ⟨?_, ?_, ?_⟩
    · change ((s.node.step P e).granting).Nodup
      rw [hnew]
      exact List.nodup_middle.mpr (List.nodup_cons.mpr ⟨hnot, halone⟩)
    · intro account haccount g hg hsame
      change account ∈ (s.node.step P e).granting at haccount
      rw [hgrants] at hg
      rw [hchecked]
      by_cases hp : account = p.account
      · subst hp
        rw [Function.update_self]
        exact rested_of_covered (he.covered p hpass g hg hsame) (Node.pass_check hpass)
      · rw [Function.update_of_ne hp]
        rw [hnew] at haccount
        apply h.rested account _ g hg hsame
        rw [hold]
        simpa [hp] using haccount
    · rw [CooledDown, hgrants]
      exact h.cooledDown
  | granted g before after hold hnew hpass hgrant =>
    have hgrants : (s.step P e).grants = s.grants ++ [g] := by
      change s.grants ++ (s.node.grant e).toList = _
      rw [hgrant]
      rfl
    have hchecked : (s.step P e).checkedAt = s.checkedAt := step_checkedAt_of_none hpass
    have halone := h.alone
    rw [hold] at halone
    obtain ⟨hgone, hrest⟩ := List.nodup_cons.mp (List.nodup_middle.mp halone)
    refine ⟨?_, ?_, ?_⟩
    · change ((s.node.step P e).granting).Nodup
      rwa [hnew]
    · intro account haccount g' hg' hsame
      change account ∈ (s.node.step P e).granting at haccount
      rw [hnew] at haccount
      rw [hgrants] at hg'
      rw [hchecked]
      rcases List.mem_append.mp hg' with hearlier | hlatest
      · apply h.rested account _ g' hearlier hsame
        rw [hold]
        exact List.mem_append.mpr ((List.mem_append.mp haccount).imp_right (List.mem_cons_of_mem _))
      · obtain rfl := List.mem_singleton.mp hlatest
        exact absurd (hsame ▸ haccount) hgone
    · rw [CooledDown, hgrants]
      apply List.pairwise_append.mpr
      refine ⟨h.cooledDown, List.pairwise_singleton _ _, ?_⟩
      intro g' hg' g'' hg''
      rw [List.mem_singleton.mp hg'']
      intro hsame
      have hrested := h.rested g.account (hold ▸ List.mem_append_right before List.mem_cons_self) g' hg' hsame
      have hforward := UInt64.le_iff_toNat_le.mp (he.forward g hgrant)
      exact Or.inl (Nat.le_trans hrested hforward)

theorem cooldown_holds (P : Primitives) {saved : Bool} {i : Fin 3} {db : BlockDb} {n : Node}
    (hstart : Node.start P saved i db = some n) (es : List Event)
    (hes : AllSteps (step P) InTurn ⟨n, [], fun _ => 0⟩ es) :
    AllStates (step P) CooledDown ⟨n, [], fun _ => 0⟩ es := by
  have hrpc : n.rpc = [] := by
    obtain ⟨db', _, rfl⟩ | ⟨blocks, _, rfl⟩ := Node.start_cases hstart
    · rfl
    · rfl
  have horderly : Orderly ⟨n, [], fun _ => 0⟩ := by
    refine ⟨?_, ?_, List.Pairwise.nil⟩
    · change (n.rpc.filterMap _).Nodup
      rw [hrpc]
      exact List.nodup_nil
    · intro account _ g hg
      exact absurd hg List.not_mem_nil
  have hrun : AllStates (step P) Orderly ⟨n, [], fun _ => 0⟩ es :=
    invariant (fun s e h he => h.step he) horderly hes
  exact hrun.mono fun s h => h.cooledDown

section Runs

instance (s : Faucet) (p : FaucetPass) (g : Grant) : Decidable (s.Covered p g) :=
  inferInstanceAs (Decidable (_ ∨ _))

instance (s : Faucet) (e : Event) : Decidable (s.InTurn e) :=
  decidable_of_iff ((∀ p ∈ s.node.pass e, p.account ∉ s.node.granting) ∧
      (∀ p ∈ s.node.pass e, ∀ g ∈ s.grants, g.account = p.account → s.Covered p g) ∧
      ∀ g ∈ s.node.grant e, s.checkedAt g.account ≤ g.stamp)
    ⟨fun h => ⟨h.1, h.2.1, h.2.2⟩, fun h => ⟨h.1, h.2, h.3⟩⟩

instance (g g' : Grant) : Decidable (Apart g g') := inferInstanceAs (Decidable (_ → _ ∨ _))

instance (s : Faucet) : Decidable s.CooledDown := inferInstanceAs (Decidable (s.grants.Pairwise Apart))

noncomputable def opened : Faucet := ⟨Node.fresh .sample 0, [], fun _ => 0⟩

def oneByOne (requests : List (String × UInt64)) : List Event :=
  requests.flatMap fun r => .request (.faucet r.1) :: List.replicate 5 (.rpc 0 ⟨0, r.2⟩)

theorem cooldown_holds_daily : AllStates (step .sample) CooledDown opened
    (oneByOne [((sampleAddr 8).hex, 1000), ((sampleAddr 8).hex, 87400),
      ("vela:" ++ (sampleAddr 8).hex, 200000)]) :=
  cooldown_holds .sample (Node.start_fresh sample_roundTrips 0) _ (by decide +kernel)

def overlapping (address : String) : List Event :=
  [.request (.faucet address), .request (.faucet address), .rpc 0 ⟨0, 1000⟩, .rpc 1 ⟨0, 1000⟩,
   .rpc 0 ⟨0, 1000⟩, .rpc 1 ⟨0, 1000⟩, .rpc 0 ⟨0, 1000⟩, .rpc 1 ⟨0, 1000⟩]

theorem cooldown_evaded :
    ¬ AllStates (step .sample) CooledDown opened
      (oneByOne [((sampleAddr 8).hex, 1000), ("vela:" ++ (sampleAddr 8).hex, 1000)]) ∧
    ¬ AllStates (step .sample) CooledDown opened (overlapping (sampleAddr 8).hex) ∧
    ¬ AllStates (step .sample) CooledDown opened
      (oneByOne [((sampleAddr 8).hex, 1000), ((sampleAddr 8).hex, 999)]) := by
  refine ⟨fun h => ?_, fun h => ?_, fun h => ?_⟩
  · exact absurd h.last (by decide +kernel)
  · exact absurd h.last (by decide +kernel)
  · exact absurd h.last (by decide +kernel)

end Runs

end Faucet

end VelaNetwork
