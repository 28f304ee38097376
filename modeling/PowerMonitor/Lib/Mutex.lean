import PowerMonitor.Lib.Interleave

/-!
# Critical sections

A program is disciplined when it gives back every section that it begins. What its statements outside of sections may do to the shared
memory is a relation `R`. A critical section then runs as if it were alone, but for `R`, from the memory of one moment
(`atomic_section`). A process that waits for the mutex can be let in if and only if no process has left its program inside a section
(`let_in_iff`).
-/

namespace PowerMonitor

section

variable {σ ρ : Type*} (R : σ → σ → Prop)

/-- Every section is given back, and outside of sections the shared memory only changes by `R`. -/
def Guarded : Bool → List (Stmt σ ρ) → Prop
  | held, [] => held = false
  | held, .lock :: c => held = false ∧ Guarded true c
  | held, .unlock :: c => held = true ∧ Guarded false c
  | held, .exec f :: c => (held = false → ∀ s r, R s (f s r).1) ∧ Guarded held c

/-- No section is begun or given back, and the shared memory only changes by `R`. -/
def Bare (c : List (Stmt σ ρ)) : Prop := ∀ x ∈ c, ∃ f, x = .exec f ∧ ∀ s r, R s (f s r).1

variable {R}

theorem Bare.of_cons {x : Stmt σ ρ} {c : List (Stmt σ ρ)} (h : Bare R (x :: c)) : Bare R c :=
  fun y hy => h y (List.mem_cons_of_mem x hy)

theorem Bare.unlock_not_mem {c : List (Stmt σ ρ)} (h : Bare R c) : Stmt.unlock ∉ c := by
  intro hm
  obtain ⟨f, hf, -⟩ := h _ hm
  cases hf

/-- Inside a section anything may be done. -/
theorem Guarded.execs (fs : List (σ → ρ → σ × ρ)) {c : List (Stmt σ ρ)} (h : Guarded R true c) :
    Guarded R true (fs.map .exec ++ c) := by
  induction fs with
  | nil => exact h
  | cons f fs ih => exact ⟨nofun, ih⟩

theorem Guarded.unlock_mem {c : List (Stmt σ ρ)} (h : Guarded R true c) : Stmt.unlock ∈ c := by
  induction c with
  | nil => cases h
  | cons x c ih =>
    cases x with
    | lock => cases h.1
    | unlock => exact List.mem_cons_self
    | exec f => exact List.mem_cons_of_mem _ (ih h.2)

end

namespace Processes

variable {ι σ ρ : Type*} [DecidableEq ι] {handler : ι → List (Stmt σ ρ)} {s s' : Processes ι σ ρ} {i j : ι} {c : List (Stmt σ ρ)}

variable {R : σ → σ → Prop}

/-- Every process gives back the mutex that it owns, or has left its program. -/
def Disciplined (R : σ → σ → Prop) (s : Processes ι σ ρ) : Prop :=
  ∀ i, Guarded R (decide (s.owner = some i)) (s.code i) ∨ Bare R (s.code i)

/-- A turn is a step, or makes a process leave its program for one without locks. -/
theorem next_cases {t : Turn ι} (hh : ∀ j, t = .signal j → Bare R (handler j)) (h : s.next handler t = some s') :
    (t = .step t.who ∧ s.step t.who = some s') ∨ (t ≠ .step t.who ∧ ∃ d, Bare R d ∧ s' = s.leave t.who d) := by
  cases t with
  | step j => exact Or.inl ⟨rfl, h⟩
  | signal j => exact Or.inr ⟨nofun, handler j, hh j rfl, (Option.some.inj h).symm⟩
  | kill j => exact Or.inr ⟨nofun, [], by simp [Bare], (Option.some.inj h).symm⟩

/-- Step lemma: the discipline. -/
theorem Disciplined.next {t : Turn ι} (hh : ∀ j, t = .signal j → Bare R (handler j)) (hd : Disciplined R s)
    (h : s.next handler t = some s') : Disciplined R s' := by
  intro i
  rcases next_cases hh h with ⟨-, hstep⟩ | ⟨-, d, hb, rfl⟩
  · generalize t.who = j at hstep
    obtain ⟨x, c, hx, hcode, hcases⟩ := step_cases hstep
    have hj := hd j
    rw [hx] at hj
    by_cases hij : i = j
    · subst hij
      rw [hcode, Function.update_self]
      rcases hj with hg | hb
      · left
        rcases hcases with ⟨rfl, -, ho, -⟩ | ⟨rfl, ho, -⟩ | ⟨f, rfl, ho, -⟩
        · rw [ho]
          simpa using hg.2
        · rw [ho]
          simpa using hg.2
        · rw [ho]
          exact hg.2
      · exact Or.inr hb.of_cons
    · rw [hcode, Function.update_of_ne hij]
      refine (hd i).imp_left fun hg => ?_
      rcases hcases with ⟨rfl, ho, ho', -⟩ | ⟨rfl, ho, -⟩ | ⟨f, rfl, ho, -⟩
      · rw [ho] at hg
        rw [ho']
        simpa [Ne.symm hij] using hg
      · rcases hj with hg' | hb
        · rw [of_decide_eq_true hg'.1] at hg
          rw [ho]
          simpa [Ne.symm hij] using hg
        · exact absurd List.mem_cons_self hb.unlock_not_mem
      · rwa [ho]
  · by_cases hij : i = t.who
    · right
      rwa [hij, leave_code_self]
    · rw [leave_code_of_ne hij]
      exact hd i

theorem Disciplined.step (hd : Disciplined R s) (h : s.step i = some s') : Disciplined R s' := by
  have hnext : s.next (fun _ => []) (.step i) = some s' := h
  exact hd.next (fun _ hj => by cases hj) hnext

/-- Run lemma: the discipline. -/
theorem Disciplined.run {ts : List (Turn ι)} (hh : ∀ j, .signal j ∈ ts → Bare R (handler j)) (hd : Disciplined R s)
    (h : Processes.run handler ts s = some s') : Disciplined R s' := by
  induction ts generalizing s with
  | nil =>
    obtain rfl := Option.some.inj h
    exact hd
  | cons t ts ih =>
    obtain ⟨s₁, h₁, hrest⟩ := run_cons.mp h
    refine ih (fun j hj => hh j (List.mem_cons_of_mem t hj)) (hd.next (fun j hj => ?_) h₁) hrest
    exact hh j (hj ▸ List.mem_cons_self)

/-- While one process owns the mutex, the others keep off. -/
theorem Disciplined.next_other {t : Turn ι} (hrefl : ∀ x, R x x) (hd : Disciplined R s) (ho : s.owner = some i) (hi : t.who ≠ i)
    (h : s.next handler t = some s') : s'.owner = some i ∧ R s.shared s'.shared := by
  cases t with
  | step j =>
    have hnot : decide (s.owner = some j) = false := by
      rw [ho, decide_eq_false_iff_not]
      exact fun he => hi (Option.some.inj he).symm
    obtain ⟨x, c, hx, -, hcases⟩ := step_cases h
    have hj := hd j
    rw [hx, hnot] at hj
    rcases hcases with ⟨-, hnone, -⟩ | ⟨rfl, -⟩ | ⟨f, rfl, ho', hshared, -⟩
    · rw [hnone] at ho
      cases ho
    · rcases hj with hg | hb
      · cases hg.1
      · exact absurd List.mem_cons_self hb.unlock_not_mem
    · refine ⟨ho'.trans ho, ?_⟩
      rw [hshared]
      rcases hj with hg | hb
      · exact hg.1 rfl _ _
      · obtain ⟨g, hg, hR⟩ := hb _ List.mem_cons_self
        cases hg
        exact hR _ _
  | signal j | kill j =>
    obtain rfl := Option.some.inj h
    exact ⟨ho, hrefl _⟩

/-- While the owner of the mutex takes no step, the shared memory only changes by `R`. -/
theorem Disciplined.stay {ts : List (Turn ι)} (hrefl : ∀ x, R x x) (htrans : ∀ {x y z}, R x y → R y z → R x z)
    (hh : ∀ j, .signal j ∈ ts → Bare R (handler j)) (hu : Undisturbed i ts) (hd : Disciplined R s) (ho : s.owner = some i)
    (h : Processes.run handler ts s = some s') (hc : s'.code i = s.code i) : s'.owner = some i ∧ R s.shared s'.shared := by
  induction ts generalizing s with
  | nil =>
    obtain rfl := Option.some.inj h
    exact ⟨ho, hrefl _⟩
  | cons t ts ih =>
    obtain ⟨s₁, h₁, hrest⟩ := run_cons.mp h
    have hi := who_ne_of_stay hu h₁ hrest hc
    obtain ⟨ho₁, hR₁⟩ := hd.next_other hrefl ho hi h₁
    have hd₁ := hd.next (fun j hj => hh j (hj ▸ List.mem_cons_self)) h₁
    obtain ⟨ho', hR'⟩ := ih (fun j hj => hh j (List.mem_cons_of_mem t hj)) hu.of_cons hd₁ ho₁ hrest
      (hc.trans (Processes.next_other h₁ hi).1.symm)
    exact ⟨ho', htrans hR₁ hR'⟩

end Processes

/-- Some statements of a process, done one after another on a shared memory that changes by `R` in between. -/
def Under {σ ρ : Type*} (R : σ → σ → Prop) : List (σ → ρ → σ × ρ) → σ × ρ → σ × ρ → Prop
  | [], x, y => R x.1 y.1 ∧ y.2 = x.2
  | f :: fs, x, y => ∃ s, R x.1 s ∧ Under R fs (f s x.2) y

/-- Statements that only read what `R` leaves alone might all have read at the beginning. -/
theorem Under.reads {σ ρ : Type*} {R : σ → σ → Prop} (htrans : ∀ {x y z}, R x y → R y z → R x z) {fs : List (σ → ρ → σ × ρ)}
    (hreads : ∀ f ∈ fs, ∀ s s' r, R s s' → f s' r = (s', (f s r).2)) {s s₁ : σ} {r : ρ} {y : σ × ρ} (hs : R s s₁)
    (h : Under R fs (s₁, r) y) : y.2 = fs.foldl (fun r f => (f s r).2) r := by
  induction fs generalizing s₁ r with
  | nil => exact h.2
  | cons f fs ih =>
    obtain ⟨s₂, hs₂, h⟩ := h
    have hss₂ := htrans hs hs₂
    rw [hreads f List.mem_cons_self s s₂ r hss₂] at h
    exact ih (fun g hg => hreads g (List.mem_cons_of_mem f hg)) hss₂ h

namespace Processes

variable {ι σ ρ : Type*} [DecidableEq ι] {handler : ι → List (Stmt σ ρ)} {s s' : Processes ι σ ρ} {i j : ι} {c : List (Stmt σ ρ)}
  {R : σ → σ → Prop}

/-- What the owner of the mutex does runs as if it were alone, but for `R`. -/
theorem critical_section (hrefl : ∀ x, R x x) (htrans : ∀ {x y z}, R x y → R y z → R x z) (body : List (σ → ρ → σ × ρ))
    {ts : List (Turn ι)} (hh : ∀ j, .signal j ∈ ts → Bare R (handler j)) (hu : Undisturbed i ts) (hd : Disciplined R s)
    (ho : s.owner = some i) (hc : s.code i = body.map .exec ++ c) (h : run handler ts s = some s') (hc' : s'.code i = c) :
    Under R body (s.shared, s.regs i) (s'.shared, s'.regs i) := by
  induction body generalizing s ts with
  | nil =>
    have hstay : s'.code i = s.code i := hc'.trans hc.symm
    exact ⟨(hd.stay hrefl htrans hh hu ho h hstay).2, run_stay hu h hstay⟩
  | cons f body ih =>
    obtain ⟨us, vs, m, m', rfl, hm, hmc, hmr, hstep, hvs⟩ := run_point hu h hc (hc' ▸ List.suffix_append _ c)
    have hhm : ∀ j, .signal j ∈ us → Bare R (handler j) := fun j hj => hh j (List.mem_append_left _ hj)
    have hmd := hd.run hhm hm
    obtain ⟨hmo, hR⟩ := hd.stay hrefl htrans hhm hu.of_append.1 ho hm (hmc.trans hc.symm)
    obtain ⟨x, d, hx, -, hcases⟩ := step_cases hstep
    obtain ⟨rfl, rfl⟩ := List.cons.inj (hmc.symm.trans hx)
    rcases hcases with ⟨he, -⟩ | ⟨he, -⟩ | ⟨g, he, ho', hshared, hr⟩
    · cases he
    · cases he
    · cases he
      have hmd' := hmd.step hstep
      have hrest := ih (fun j hj => hh j (List.mem_append_right _ (List.mem_cons_of_mem _ hj))) hu.of_append.2.of_cons hmd'
        (ho'.trans hmo) (step_code hstep hmc) hvs
      refine ⟨m.shared, hR, ?_⟩
      rw [hr, Function.update_self, hshared, hmr] at hrest
      exact hrest

/-- A process that has come past a critical section has run it, but for `R`, from the memory of one moment. -/
theorem atomic_section (hrefl : ∀ x, R x x) (htrans : ∀ {x y z}, R x y → R y z → R x z) (body : List (σ → ρ → σ × ρ))
    {ts : List (Turn ι)} (hh : ∀ j, .signal j ∈ ts → Bare R (handler j)) (hu : Undisturbed i ts) (hd : Disciplined R s)
    (hc : s.code i = .lock :: (body.map .exec ++ .unlock :: c)) (h : run handler ts s = some s') (hc' : s'.code i = c) :
    ∃ us vs m x, ts = us ++ vs ∧ run handler us s = some m ∧ Under R body (m.shared, s.regs i) (x, s'.regs i) := by
  have hsuffix : s'.code i <:+ .unlock :: c := hc' ▸ List.suffix_cons _ _
  -- the mutex is taken at `m` and given back behind `p`
  obtain ⟨us, vs, m, m', rfl, hm, hmc, hmr, hlock, hvs⟩ := run_point hu h hc (hsuffix.trans (List.suffix_append _ _))
  have hmc' := step_code hlock hmc
  obtain ⟨us', vs', p, rfl, hp, hpc, hvs'⟩ := run_through _ hu.of_append.2.of_cons hvs hmc' hsuffix
  have hu' := hu.of_append.2.of_cons.of_append
  refine ⟨us, _, m, p.shared, rfl, hm, ?_⟩
  have hmd : Disciplined R m := hd.run (fun j hj => hh j (List.mem_append_left _ hj)) hm
  have hmd' := hmd.step hlock
  obtain ⟨x, d, hx, -, hcases⟩ := step_cases hlock
  obtain ⟨rfl, rfl⟩ := List.cons.inj (hmc.symm.trans hx)
  rcases hcases with ⟨-, -, ho, hshared, hr⟩ | ⟨he, -⟩ | ⟨f, he, -⟩
  · have hunder := critical_section hrefl htrans body
      (fun j hj => hh j (List.mem_append_right _ (List.mem_cons_of_mem _ (List.mem_append_left _ hj)))) hu'.1 hmd' ho hmc' hp hpc
    rwa [hshared, hr, hmr, ← run_skip hu'.2 hvs' (Or.inr rfl) hpc hc'] at hunder
  · cases he
  · cases he

/-! ## Waiting for the mutex -/

/-- The owner of the mutex has no unlock before it. -/
def Lost (s : Processes ι σ ρ) : Prop := ∃ i, s.owner = some i ∧ Stmt.unlock ∉ s.code i

/-- Step lemma: a mutex that is lost stays lost, and nobody comes past a lock. -/
theorem Lost.next {t : Turn ι} (hh : ∀ j, t = .signal j → Bare R (handler j)) (hd : Disciplined R s) (hlost : Lost s)
    (h : s.next handler t = some s') :
    Lost s' ∧ ∀ j c, (t.who = j → t = .step j) → .lock :: c <:+ s.code j → .lock :: c <:+ s'.code j := by
  obtain ⟨i, ho, hnot⟩ := hlost
  rcases next_cases hh h with ⟨-, hstep⟩ | ⟨hne, d, hb, rfl⟩
  · generalize t.who = k at hstep
    obtain ⟨x, d, hx, hcode, hcases⟩ := step_cases hstep
    have hown : s'.owner = some i ∧ x ≠ .lock := by
      rcases hcases with ⟨-, hnone, -⟩ | ⟨rfl, -⟩ | ⟨f, rfl, ho', -⟩
      · rw [hnone] at ho
        cases ho
      · rcases hx ▸ hd k with hg | hb
        · obtain rfl : i = k := Option.some.inj (ho.symm.trans (of_decide_eq_true hg.1))
          exact absurd (hx ▸ List.mem_cons_self) hnot
        · exact absurd List.mem_cons_self hb.unlock_not_mem
      · exact ⟨ho'.trans ho, nofun⟩
    refine ⟨⟨i, hown.1, ?_⟩, fun j c _ hl => ?_⟩
    · by_cases hik : i = k
      · subst hik
        rw [step_code hstep hx]
        rw [hx] at hnot
        exact fun hm => hnot (List.mem_cons_of_mem x hm)
      · rwa [hcode, Function.update_of_ne hik]
    · by_cases hjk : j = k
      · subst hjk
        rw [step_code hstep hx]
        rw [hx, List.suffix_cons_iff] at hl
        exact hl.resolve_left fun he => hown.2 (List.cons.inj he).1.symm
      · rwa [hcode, Function.update_of_ne hjk]
  · refine ⟨⟨i, ho, ?_⟩, fun j c hu hl => ?_⟩
    · by_cases hi : i = t.who
      · rw [hi, leave_code_self]
        exact hb.unlock_not_mem
      · rwa [leave_code_of_ne hi]
    · rwa [leave_code_of_ne fun he => hne ((hu he.symm).trans (congrArg Turn.step he))]

/-- Run lemma: a mutex that is lost stays lost, and nobody comes past a lock. -/
theorem Lost.run {ts : List (Turn ι)} (hh : ∀ j, Bare R (handler j)) (hd : Disciplined R s) (hlost : Lost s)
    (h : Processes.run handler ts s = some s') :
    Lost s' ∧ ∀ j c, Undisturbed j ts → .lock :: c <:+ s.code j → .lock :: c <:+ s'.code j := by
  induction ts generalizing s with
  | nil =>
    obtain rfl := Option.some.inj h
    exact ⟨hlost, fun _ _ _ hl => hl⟩
  | cons t ts ih =>
    obtain ⟨s₁, h₁, hrest⟩ := run_cons.mp h
    have hht : ∀ j, t = .signal j → Bare R (handler j) := fun j _ => hh j
    obtain ⟨hlost₁, hblocked₁⟩ := hlost.next hht hd h₁
    obtain ⟨hlost', hblocked⟩ := ih (hd.next hht h₁) hlost₁ hrest
    exact ⟨hlost', fun j c hu hl => hblocked j c hu.of_cons (hblocked₁ j c (hu t List.mem_cons_self) hl)⟩

/-- The owner of the mutex comes to give it back. -/
theorem release (handler : ι → List (Stmt σ ρ)) (hg : Guarded R true (s.code i)) (ho : s.owner = some i) :
    ∃ n s', run handler (List.replicate n (.step i)) s = some s' ∧ s'.owner = none ∧ ∀ k, k ≠ i → s'.code k = s.code k := by
  generalize hd : s.code i = d at hg
  induction d generalizing s with
  | nil => cases hg
  | cons x d ih =>
    cases x with
    | lock => cases hg.1
    | unlock =>
      refine ⟨1, { s with owner := none, code := Function.update s.code i d }, ?_, rfl, fun k hk => Function.update_of_ne hk ..⟩
      rw [List.replicate_one, run_cons]
      exact ⟨_, by simp only [next, step, hd], rfl⟩
    | exec f =>
      have hstep : s.step i = some { s with
          shared := (f s.shared (s.regs i)).1
          code := Function.update s.code i d
          regs := Function.update s.regs i (f s.shared (s.regs i)).2 } := by
        simp only [step, hd]
      obtain ⟨n, s', hrun, ho', hcode⟩ := ih (s := { s with
          shared := (f s.shared (s.regs i)).1
          code := Function.update s.code i d
          regs := Function.update s.regs i (f s.shared (s.regs i)).2 }) ho (Function.update_self ..) hg.2
      refine ⟨n + 1, s', ?_, ho', fun k hk => ?_⟩
      · rw [List.replicate_succ, run_cons]
        exact ⟨_, hstep, hrun⟩
      · exact (hcode k hk).trans (Function.update_of_ne hk ..)

/-- A process has left its program while it owned the mutex. -/
def Abandoned (handler : ι → List (Stmt σ ρ)) (ts : List (Turn ι)) (s : Processes ι σ ρ) : Prop :=
  ∃ us t vs m, ts = us ++ t :: vs ∧ run handler us s = some m ∧ m.owner = some t.who ∧ t ≠ .step t.who

/-- A process that waits for the mutex comes past its lock in some turns, if the owner has its unlock before it. -/
theorem admitted (handler : ι → List (Stmt σ ρ)) (hd : Disciplined R s) (hl : s.code j = .lock :: c)
    (hback : ∀ i, s.owner = some i → Stmt.unlock ∈ s.code i) :
    ∃ ts s', (∀ t ∈ ts, ∃ k, t = .step k) ∧ run handler ts s = some s' ∧ s'.code j = c := by
  -- once the mutex is free, one step is enough
  have henter : ∀ {s : Processes ι σ ρ}, s.owner = none → s.code j = .lock :: c → ∃ s', s.step j = some s' ∧ s'.code j = c := by
    intro s ho hl
    refine ⟨{ s with owner := some j, code := Function.update s.code j c }, ?_, Function.update_self ..⟩
    simp only [step, hl, ho, Option.isNone_none, if_true]
  cases ho : s.owner with
  | none =>
    obtain ⟨s', hs', hc⟩ := henter ho hl
    refine ⟨[.step j], s', ?_, run_cons.mpr ⟨s', hs', rfl⟩, hc⟩
    simp
  | some i =>
    have hg : Guarded R true (s.code i) := by
      rcases hd i with hg | hb
      · rwa [decide_eq_true ho] at hg
      · exact absurd (hback i ho) hb.unlock_not_mem
    have hij : j ≠ i := by
      rintro rfl
      rw [hl] at hg
      cases hg.1
    obtain ⟨n, s₁, hrun, ho₁, hcode⟩ := release handler hg ho
    obtain ⟨s', hs', hc⟩ := henter ho₁ ((hcode j hij).trans hl)
    refine ⟨List.replicate n (.step i) ++ [.step j], s', ?_, ?_, hc⟩
    · intro t ht
      rcases List.mem_append.mp ht with ht | ht
      · exact ⟨i, List.eq_of_mem_replicate ht⟩
      · exact ⟨j, List.mem_singleton.mp ht⟩
    · rw [run_append, hrun]
      exact run_cons.mpr ⟨s', hs', rfl⟩

/-- Step lemma: an owner that does not leave its program still gives the mutex back. -/
theorem guarded_next {t : Turn ι} (hh : ∀ j, t = .signal j → Bare R (handler j)) (hd : Disciplined R s)
    (hg : ∀ i, s.owner = some i → Guarded R true (s.code i)) (hin : s.owner = some t.who → t = .step t.who)
    (h : s.next handler t = some s') : ∀ i, s'.owner = some i → Guarded R true (s'.code i) := by
  intro i ho
  rcases next_cases hh h with ⟨-, hstep⟩ | ⟨hne, d, -, rfl⟩
  · generalize t.who = j at hstep
    obtain ⟨x, c, hx, hcode, ⟨rfl, hnone, ho', -⟩ | ⟨rfl, ho', -⟩ | ⟨f, rfl, ho', -⟩⟩ := step_cases hstep
    · obtain rfl := Option.some.inj (ho'.symm.trans ho)
      rw [step_code hstep hx]
      rcases hx ▸ hd j with hg | hb
      · exact hg.2
      · obtain ⟨f, hf, -⟩ := hb _ List.mem_cons_self
        cases hf
    · rw [ho'] at ho
      cases ho
    · have hi := hg i (ho'.symm.trans ho)
      by_cases hij : i = j
      · subst hij
        rw [hx] at hi
        rw [step_code hstep hx]
        exact hi.2
      · rwa [hcode, Function.update_of_ne hij]
  · have hi : i ≠ t.who := by
      rintro rfl
      exact hne (hin ho)
    rw [leave_code_of_ne hi]
    exact hg i ho

/-- Run lemma: where no process has left its program while it owned the mutex, the owner still gives it back. -/
theorem guarded_run {ts : List (Turn ι)} (hh : ∀ j, .signal j ∈ ts → Bare R (handler j)) (hd : Disciplined R s)
    (hg : ∀ i, s.owner = some i → Guarded R true (s.code i)) (hnot : ¬ Abandoned handler ts s) (h : run handler ts s = some s') :
    ∀ i, s'.owner = some i → Guarded R true (s'.code i) := by
  induction ts generalizing s with
  | nil =>
    obtain rfl := Option.some.inj h
    exact hg
  | cons t ts ih =>
    obtain ⟨s₁, h₁, hrest⟩ := run_cons.mp h
    have hht : ∀ j, t = .signal j → Bare R (handler j) := fun j hj => hh j (hj ▸ List.mem_cons_self)
    have hin : s.owner = some t.who → t = .step t.who := by
      intro ho
      by_contra hne
      exact hnot ⟨[], t, ts, s, rfl, rfl, ho, hne⟩
    refine ih (fun j hj => hh j (List.mem_cons_of_mem t hj)) (hd.next hht h₁) (guarded_next hht hd hg hin h₁) ?_ hrest
    rintro ⟨us, t', vs, m, rfl, hm, ho, hne⟩
    exact hnot ⟨t :: us, t', vs, m, rfl, run_cons.mpr ⟨s₁, h₁, hm⟩, ho, hne⟩

/-- A process that leaves its program while it owns the mutex leaves it lost. -/
theorem Abandoned.lost {ts : List (Turn ι)} (hh : ∀ j, Bare R (handler j)) (hd : Disciplined R s) (ha : Abandoned handler ts s)
    (h : run handler ts s = some s') : Lost s' := by
  obtain ⟨us, t, vs, m, rfl, hm, ho, hne⟩ := ha
  rw [run_append, hm, Option.bind_some, run_cons] at h
  obtain ⟨m₁, hm₁, hrest⟩ := h
  have hmd : Disciplined R m := hd.run (fun j _ => hh j) hm
  have hlost : Lost m₁ := by
    rcases next_cases (fun j _ => hh j) hm₁ with ⟨he, -⟩ | ⟨-, d, hb, rfl⟩
    · exact absurd he hne
    · refine ⟨t.who, ho, ?_⟩
      rw [leave_code_self]
      exact hb.unlock_not_mem
  exact (hlost.run hh (hmd.next (fun j _ => hh j) hm₁) hrest).1

/-- A process that waits for the mutex can be let in if and only if no process has left its program while it owned the mutex. -/
theorem let_in_iff {ts : List (Turn ι)} (hh : ∀ j, Bare R (handler j)) (hd : Disciplined R s) (hfree : s.owner = none)
    (h : run handler ts s = some s') (hw : s'.code j = .lock :: c) :
    (∃ us s'', Undisturbed j us ∧ run handler us s' = some s'' ∧ s''.code j = c) ↔ ¬ Abandoned handler ts s := by
  have hd' : Disciplined R s' := hd.run (fun j _ => hh j) h
  constructor
  · rintro ⟨us, s'', hu, h', hc⟩ ha
    have hlen := ((ha.lost hh hd h).run hh hd' h').2 j c hu (hw ▸ List.suffix_refl _)
    rw [hc] at hlen
    have := hlen.length_le
    rw [List.length_cons] at this
    omega
  · intro hnot
    have hg := guarded_run (fun j _ => hh j) hd (fun i ho => by rw [hfree] at ho; cases ho) hnot h
    obtain ⟨us, s'', hsteps, h', hc⟩ := admitted handler hd' hw fun i ho => (hg i ho).unlock_mem
    refine ⟨us, s'', fun t ht hj => ?_, h', hc⟩
    obtain ⟨k, rfl⟩ := hsteps t ht
    exact hj ▸ rfl

end Processes

end PowerMonitor
