/-! Runs of machines. A machine takes at most one step from each configuration, so what it does from
there on is one run, and a configuration without a step ends it. -/
namespace FlatCode.Run
variable {σ : Type} (step : σ → Option σ)

def run : Nat → σ → Option σ
  | 0, m => some m
  | n + 1, m => (step m).bind (run n)

def Reaches (m m' : σ) : Prop := ∃ k, run step k m = some m'

variable {step} {m m' m'' : σ} {j k : Nat}

theorem run_add (j k : Nat) (m : σ) :
    run step (j + k) m = (run step j m).bind (run step k) := by
  induction j generalizing m with
  | zero =>
    rw [Nat.zero_add]
    rfl
  | succ j ih =>
    rw [Nat.succ_add, run, run, Option.bind_assoc]
    exact congrArg (Option.bind _) (funext ih)

theorem run_between (hj : run step j m = some m') (hk : run step k m = some m'') (h : j ≤ k) :
    run step (k - j) m' = some m'' := by
  have whole : run step (j + (k - j)) m = _ := run_add j (k - j) m
  rw [Nat.add_sub_of_le h, hk, hj] at whole
  exact whole.symm

theorem length_le (hj : run step j m = some m') (ends : step m' = none)
    (hk : run step k m = some m'') : k ≤ j := by
  refine Nat.le_of_not_lt fun h => ?_
  have rest := run_between hj hk (by omega)
  obtain ⟨n, hn⟩ : ∃ n, k - j = n + 1 := ⟨k - j - 1, by omega⟩
  rw [hn, run, ends] at rest
  cases rest

namespace Reaches

theorem refl (m : σ) : Reaches step m m := ⟨0, rfl⟩

theorem of_step (h : step m = some m') : Reaches step m m' := ⟨1, by simp [run, h]⟩

theorem trans (h : Reaches step m m') (k : Reaches step m' m'') : Reaches step m m'' := by
  obtain ⟨i, hi⟩ := h
  obtain ⟨j, hj⟩ := k
  exact ⟨i + j, by rw [run_add, hi]; exact hj⟩

/-- All that is reached is on the way to where the run ends. -/
theorem last (h : Reaches step m m') (ends : step m' = none) (h' : Reaches step m m'') :
    Reaches step m'' m' := by
  obtain ⟨i, hi⟩ := h
  obtain ⟨j, hj⟩ := h'
  exact ⟨i - j, run_between hj hi (length_le hi ends hj)⟩

end Reaches
end FlatCode.Run
