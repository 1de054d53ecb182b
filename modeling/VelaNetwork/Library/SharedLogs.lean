import VelaNetwork.Library.Runs
import Mathlib.Logic.Function.Basic

namespace Library.SharedLogs

structure SharedLog (ι α : Type*) where
  entries : List α
  position : ι → ℕ

namespace SharedLog

variable {ι α : Type*}

def reads (s : SharedLog ι α) (i : ι) : List α := s.entries.take (s.position i)

variable [DecidableEq ι]

/-- Only a replica that has read the whole log adds to it; any other reads on, as far as the log goes. -/
inductive Step (s : SharedLog ι α) : SharedLog ι α → Prop
  | add (i : ι) (entry : α) (hall : s.position i = s.entries.length) :
      Step s ⟨s.entries ++ [entry], Function.update s.position i (s.entries.length + 1)⟩
  | read (i : ι) (n : ℕ) (hfrom : s.position i ≤ n) (hto : n ≤ s.entries.length) :
      Step s ⟨s.entries, Function.update s.position i n⟩

variable {s s' : SharedLog ι α}

theorem Step.entries_prefix (h : Step s s') : s.entries <+: s'.entries := by
  cases h with
  | add i entry hall => exact List.prefix_append _ _
  | read i n hfrom hto => exact List.prefix_rfl

theorem Step.position_le (h : Step s s') (j : ι) : s.position j ≤ s'.position j := by
  cases h with
  | add i entry hall =>
    change _ ≤ Function.update s.position i (s.entries.length + 1) j
    by_cases hj : j = i
    · rw [hj, Function.update_self, hall]
      exact Nat.le_succ _
    · rw [Function.update_of_ne hj]
  | read i n hfrom hto =>
    change _ ≤ Function.update s.position i n j
    by_cases hj : j = i
    · rw [hj, Function.update_self]
      exact hfrom
    · rw [Function.update_of_ne hj]

omit [DecidableEq ι] in
theorem take_prefix_take {l l' : List α} {m n : ℕ} (hl : l <+: l') (hmn : m ≤ n) : l.take m <+: l'.take n :=
  (hl.take m).trans (List.take_prefix_take_left hmn)

theorem Step.reads_prefix (h : Step s s') (j : ι) : s.reads j <+: s'.reads j :=
  take_prefix_take h.entries_prefix (h.position_le j)

omit [DecidableEq ι] in
theorem reads_comparable (s : SharedLog ι α) (i j : ι) : s.reads i <+: s.reads j ∨ s.reads j <+: s.reads i :=
  (Nat.le_total (s.position i) (s.position j)).imp (take_prefix_take List.prefix_rfl)
    (take_prefix_take List.prefix_rfl)

end SharedLog

end Library.SharedLogs
