import Mathlib.Data.List.Induction

/-!
# Machines that read and write

A transducer reads inputs one after another; each moves its state on and makes it write. What it has written after a list of
inputs is what it wrote for each of them, in order.
-/

namespace PowerMonitor

/-- A state that every input moves on, and what is written meanwhile. -/
structure Transducer (σ ι ω : Type*) where
  step : ι → σ → σ × List ω

namespace Transducer

variable {σ ι ω : Type*} (m : Transducer σ ι ω)

/-- The state after a list of inputs, and everything written. -/
def run (xs : List ι) (s : σ) : σ × List ω :=
  xs.foldl (fun r x => ((m.step x r.1).1, r.2 ++ (m.step x r.1).2)) (s, [])

@[simp] theorem run_nil (s : σ) : m.run [] s = (s, []) := rfl

/-- One more input. -/
theorem run_snoc (xs : List ι) (x : ι) (s : σ) :
    m.run (xs ++ [x]) s = ((m.step x (m.run xs s).1).1, (m.run xs s).2 ++ (m.step x (m.run xs s).1).2) := by
  rw [run, List.foldl_append]
  rfl

/-- One list of inputs after another. -/
theorem run_append (xs ys : List ι) (s : σ) :
    m.run (xs ++ ys) s = ((m.run ys (m.run xs s).1).1, (m.run xs s).2 ++ (m.run ys (m.run xs s).1).2) := by
  induction ys using List.reverseRecOn with
  | nil => simp
  | append_singleton ys y ih => rw [← List.append_assoc, run_snoc, ih, run_snoc, List.append_assoc]

end Transducer

end PowerMonitor
