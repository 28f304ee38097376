import Mathlib.Data.List.Infix
import Mathlib.Logic.Function.Basic

/-!
# Processes over a shared memory with a mutex

A process is the rest of its program: a list of statements that take the mutex, give it back, or work on the shared memory and on the
process's own. The processes take turns in any order, one statement at a time, and a process can be made to leave its program at any
time, for good (`kill`) or for a handler (`signal`); the mutex stays as it is then.

The mutex is one for all processes (`PTHREAD_PROCESS_SHARED` in POSIX): no two hold it at a time, and whoever waits for it can go on
when any other gives it back. A program that initialises it for the use of one process only is outside this model.

A process comes past every point of its program (`run_through`), and what it does there it does on the memory of one moment
(`exec_moment`). What every statement keeps, wherever a process is, holds in every state (`safe_run`).
-/

namespace PowerMonitor

/-- A statement of a process. -/
inductive Stmt (σ ρ : Type*) where
  | lock
  | unlock
  /-- A statement on the shared memory and on the process's own. -/
  | exec (f : σ → ρ → σ × ρ)

/-- The shared memory, the owner of its mutex, and what each process has to do and has for itself. -/
structure Processes (ι σ ρ : Type*) where
  shared : σ
  owner : Option ι
  code : ι → List (Stmt σ ρ)
  regs : ι → ρ

/-- What happens next: a process takes a step, is sent to its handler, or ends. -/
inductive Turn (ι : Type*) where
  | step (i : ι)
  | signal (i : ι)
  | kill (i : ι)
  deriving DecidableEq

/-- The process whose turn it is. -/
def Turn.who {ι : Type*} : Turn ι → ι
  | .step i => i
  | .signal i => i
  | .kill i => i

/-- In these turns a process only takes steps. -/
def Undisturbed {ι : Type*} (i : ι) (ts : List (Turn ι)) : Prop := ∀ t ∈ ts, t.who = i → t = .step i

instance {ι : Type*} [DecidableEq ι] (i : ι) (ts : List (Turn ι)) : Decidable (Undisturbed i ts) :=
  inferInstanceAs (Decidable (∀ t ∈ ts, t.who = i → t = .step i))

theorem Undisturbed.of_cons {ι : Type*} {i : ι} {t : Turn ι} {ts : List (Turn ι)} (h : Undisturbed i (t :: ts)) : Undisturbed i ts :=
  fun t' ht' => h t' (List.mem_cons_of_mem t ht')

theorem Undisturbed.of_append {ι : Type*} {i : ι} {us vs : List (Turn ι)} (h : Undisturbed i (us ++ vs)) :
    Undisturbed i us ∧ Undisturbed i vs :=
  ⟨fun t ht => h t (List.mem_append_left vs ht), fun t ht => h t (List.mem_append_right us ht)⟩

namespace Processes

variable {ι σ ρ : Type*} [DecidableEq ι]

/-- A step of a process, which waits while another one owns the mutex. -/
def step (i : ι) (s : Processes ι σ ρ) : Option (Processes ι σ ρ) :=
  match s.code i with
  | [] => none
  | .lock :: c => if s.owner.isNone then some { s with owner := some i, code := Function.update s.code i c } else none
  | .unlock :: c => some { s with owner := none, code := Function.update s.code i c }
  | .exec f :: c =>
    some { s with
      shared := (f s.shared (s.regs i)).1
      code := Function.update s.code i c
      regs := Function.update s.regs i (f s.shared (s.regs i)).2 }

/-- A process leaves its program for another. -/
def leave (i : ι) (c : List (Stmt σ ρ)) (s : Processes ι σ ρ) : Processes ι σ ρ := { s with code := Function.update s.code i c }

@[simp] theorem leave_code_self (i : ι) (c : List (Stmt σ ρ)) (s : Processes ι σ ρ) : (s.leave i c).code i = c :=
  Function.update_self ..

theorem leave_code_of_ne {i j : ι} (h : j ≠ i) (c : List (Stmt σ ρ)) (s : Processes ι σ ρ) : (s.leave i c).code j = s.code j :=
  Function.update_of_ne h ..

variable (handler : ι → List (Stmt σ ρ))

/-- What a turn makes of the processes. -/
def next : Turn ι → Processes ι σ ρ → Option (Processes ι σ ρ)
  | .step i, s => s.step i
  | .signal i, s => some (s.leave i (handler i))
  | .kill i, s => some (s.leave i [])

/-- Some turns, one after another. -/
def run : List (Turn ι) → Processes ι σ ρ → Option (Processes ι σ ρ)
  | [], s => some s
  | t :: ts, s => (s.next handler t).bind (run ts)

variable {handler} {s s' : Processes ι σ ρ} {i j : ι} {c : List (Stmt σ ρ)}

theorem run_cons {t : Turn ι} {ts : List (Turn ι)} :
    run handler (t :: ts) s = some s' ↔ ∃ s₁, s.next handler t = some s₁ ∧ run handler ts s₁ = some s' := Option.bind_eq_some_iff

theorem run_append (ts ts' : List (Turn ι)) (s : Processes ι σ ρ) :
    run handler (ts ++ ts') s = (run handler ts s).bind (run handler ts') := by
  induction ts generalizing s with
  | nil => rfl
  | cons t ts ih =>
    rw [List.cons_append, run, run, Option.bind_assoc]
    exact Option.bind_congr fun s₁ _ => ih s₁

/-- Everything that a step can do. -/
theorem step_cases (h : s.step i = some s') : ∃ x c, s.code i = x :: c ∧ s'.code = Function.update s.code i c ∧
    ((x = .lock ∧ s.owner = none ∧ s'.owner = some i ∧ s'.shared = s.shared ∧ s'.regs = s.regs) ∨
      (x = .unlock ∧ s'.owner = none ∧ s'.shared = s.shared ∧ s'.regs = s.regs) ∨
      ∃ f, x = .exec f ∧ s'.owner = s.owner ∧ s'.shared = (f s.shared (s.regs i)).1 ∧
        s'.regs = Function.update s.regs i (f s.shared (s.regs i)).2) := by
  unfold step at h
  split at h
  · cases h
  · next c hc =>
    split at h
    · next ho =>
      obtain rfl := Option.some.inj h
      exact ⟨_, c, hc, rfl, Or.inl ⟨rfl, Option.isNone_iff_eq_none.mp ho, rfl, rfl, rfl⟩⟩
    · cases h
  · next c hc =>
    obtain rfl := Option.some.inj h
    exact ⟨_, c, hc, rfl, Or.inr (Or.inl ⟨rfl, rfl, rfl, rfl⟩)⟩
  · next f c hc =>
    obtain rfl := Option.some.inj h
    exact ⟨_, c, hc, rfl, Or.inr (Or.inr ⟨f, rfl, rfl, rfl, rfl⟩)⟩

/-- A turn leaves what the other processes have to do and have for themselves. -/
theorem next_other {t : Turn ι} (h : s.next handler t = some s') (hi : t.who ≠ i) : s'.code i = s.code i ∧ s'.regs i = s.regs i := by
  cases t with
  | step j =>
    have hij : i ≠ j := fun he => hi he.symm
    obtain ⟨x, c, -, hcode, hcases⟩ := step_cases h
    refine ⟨by rw [hcode, Function.update_of_ne hij], ?_⟩
    rcases hcases with ⟨-, -, -, -, hr⟩ | ⟨-, -, -, hr⟩ | ⟨f, -, -, -, hr⟩
    · rw [hr]
    · rw [hr]
    · rw [hr, Function.update_of_ne hij]
  | signal j | kill j =>
    obtain rfl := Option.some.inj h
    exact ⟨leave_code_of_ne hi.symm .., rfl⟩

/-- A step takes the first statement of its process. -/
theorem step_code (h : s.step i = some s') {x : Stmt σ ρ} (hc : s.code i = x :: c) : s'.code i = c := by
  obtain ⟨y, d, hd, hcode, -⟩ := step_cases h
  obtain ⟨-, rfl⟩ := List.cons.inj (hc.symm.trans hd)
  rw [hcode, Function.update_self]

/-! ## A process among the others -/

/-- What a process has to do is what it had to do, less a part that it has done. -/
theorem run_suffix {ts : List (Turn ι)} (hu : Undisturbed i ts) (h : run handler ts s = some s') : s'.code i <:+ s.code i := by
  induction ts generalizing s with
  | nil =>
    obtain rfl := Option.some.inj h
    exact List.suffix_refl _
  | cons t ts ih =>
    rw [run_cons] at h
    obtain ⟨s₁, h₁, h⟩ := h
    refine (ih hu.of_cons h).trans ?_
    by_cases hi : t.who = i
    · obtain rfl := hu t List.mem_cons_self hi
      obtain ⟨x, c, hc, -⟩ := step_cases h₁
      rw [step_code h₁ hc, hc]
      exact List.suffix_cons x c
    · rw [(next_other h₁ hi).1]

/-- A process that has come past a statement has taken it at one moment, with what it had for itself before. -/
theorem run_point {ts : List (Turn ι)} (hu : Undisturbed i ts) (h : run handler ts s = some s') {x : Stmt σ ρ} (hc : s.code i = x :: c)
    (hc' : s'.code i <:+ c) : ∃ us vs m m', ts = us ++ .step i :: vs ∧ run handler us s = some m ∧ m.code i = x :: c ∧
      m.regs i = s.regs i ∧ m.step i = some m' ∧ run handler vs m' = some s' := by
  induction ts generalizing s with
  | nil =>
    obtain rfl := Option.some.inj h
    have hlen := hc'.length_le
    rw [hc, List.length_cons] at hlen
    omega
  | cons t ts ih =>
    rw [run_cons] at h
    obtain ⟨s₁, h₁, h⟩ := h
    by_cases hi : t.who = i
    · obtain rfl := hu t List.mem_cons_self hi
      exact ⟨[], ts, s, s₁, rfl, rfl, hc, rfl, h₁, h⟩
    · obtain ⟨hcode, hregs⟩ := next_other h₁ hi
      obtain ⟨us, vs, m, m', rfl, hm, hmc, hmr, hstep, hvs⟩ := ih hu.of_cons h (hcode.trans hc)
      exact ⟨t :: us, vs, m, m', rfl, run_cons.mpr ⟨s₁, h₁, hm⟩, hmc, hmr.trans hregs, hstep, hvs⟩

/-- A process comes past every point of its program. -/
theorem run_through (pre : List (Stmt σ ρ)) {ts : List (Turn ι)} (hu : Undisturbed i ts) (h : run handler ts s = some s')
    (hc : s.code i = pre ++ c) (hc' : s'.code i <:+ c) :
    ∃ us vs m, ts = us ++ vs ∧ run handler us s = some m ∧ m.code i = c ∧ run handler vs m = some s' := by
  induction pre generalizing s ts with
  | nil => exact ⟨[], ts, s, rfl, rfl, hc, h⟩
  | cons x pre ih =>
    obtain ⟨us, vs, m, m', rfl, hm, hmc, -, hstep, hvs⟩ := run_point hu h hc (hc'.trans (List.suffix_append pre c))
    obtain ⟨us', vs', p, rfl, hp, hpc, hvs'⟩ := ih hu.of_append.2.of_cons hvs (step_code hstep hmc)
    refine ⟨us ++ .step i :: us', vs', p, by simp, ?_, hpc, hvs'⟩
    rw [run_append, hm]
    exact run_cons.mpr ⟨m', hstep, hp⟩

/-- A process that still has everything to do has not taken the first turn. -/
theorem who_ne_of_stay {t : Turn ι} {ts : List (Turn ι)} {s₁ : Processes ι σ ρ} (hu : Undisturbed i (t :: ts))
    (h₁ : s.next handler t = some s₁) (h : run handler ts s₁ = some s') (hc : s'.code i = s.code i) : t.who ≠ i := by
  intro hi
  obtain rfl := hu t List.mem_cons_self hi
  obtain ⟨x, c, hx, -⟩ := step_cases h₁
  have hlen := (run_suffix hu.of_cons h).length_le
  rw [hc, hx, step_code h₁ hx, List.length_cons] at hlen
  omega

/-- A process that has taken no step has for itself what it had. -/
theorem run_stay {ts : List (Turn ι)} (hu : Undisturbed i ts) (h : run handler ts s = some s') (hc : s'.code i = s.code i) :
    s'.regs i = s.regs i := by
  induction ts generalizing s with
  | nil =>
    obtain rfl := Option.some.inj h
    rfl
  | cons t ts ih =>
    obtain ⟨s₁, h₁, hrest⟩ := run_cons.mp h
    obtain ⟨hcode, hregs⟩ := next_other h₁ (who_ne_of_stay hu h₁ hrest hc)
    rw [ih hu.of_cons hrest (hc.trans hcode.symm), hregs]

/-- A process that has come past a lock or an unlock has for itself what it had. -/
theorem run_skip {ts : List (Turn ι)} (hu : Undisturbed i ts) (h : run handler ts s = some s') {x : Stmt σ ρ}
    (hx : x = .lock ∨ x = .unlock) (hc : s.code i = x :: c) (hc' : s'.code i = c) : s'.regs i = s.regs i := by
  obtain ⟨us, vs, m, m', rfl, -, hmc, hmr, hstep, hvs⟩ := run_point hu h hc (hc' ▸ List.suffix_refl _)
  rw [run_stay hu.of_append.2.of_cons hvs (hc'.trans (step_code hstep hmc).symm), ← hmr]
  obtain ⟨y, d, hd, -, hcases⟩ := step_cases hstep
  obtain ⟨rfl, rfl⟩ := List.cons.inj (hmc.symm.trans hd)
  rcases hcases with ⟨-, -, -, -, hr⟩ | ⟨-, -, -, hr⟩ | ⟨f, rfl, -⟩
  · rw [hr]
  · rw [hr]
  · rcases hx with hx | hx <;> cases hx

/-- A process that has come past a statement of its own has done it on the memory of one moment. -/
theorem exec_moment {ts : List (Turn ι)} (hu : Undisturbed i ts) (h : run handler ts s = some s') {f : σ → ρ → σ × ρ}
    (hc : s.code i = .exec f :: c) (hc' : s'.code i = c) :
    ∃ us vs m, ts = us ++ vs ∧ run handler us s = some m ∧ s'.regs i = (f m.shared (s.regs i)).2 := by
  obtain ⟨us, vs, m, m', rfl, hm, hmc, hmr, hstep, hvs⟩ := run_point hu h hc (hc' ▸ List.suffix_refl _)
  refine ⟨us, .step i :: vs, m, rfl, hm, ?_⟩
  rw [run_stay hu.of_append.2.of_cons hvs (hc'.trans (step_code hstep hmc).symm)]
  obtain ⟨x, d, hd, -, hcases⟩ := step_cases hstep
  obtain ⟨rfl, rfl⟩ := List.cons.inj (hmc.symm.trans hd)
  rcases hcases with ⟨hx, -⟩ | ⟨hx, -⟩ | ⟨g, hx, -, -, hr⟩
  · cases hx
  · cases hx
  · cases hx
    rw [hr, Function.update_self, hmr]

end Processes

/-! ## A process that alone changes the shared memory -/

/-- What some statements make of the shared memory and of the process's own where nobody else takes a turn. -/
def alone {σ ρ : Type*} : List (Stmt σ ρ) → σ × ρ → σ × ρ
  | [], x => x
  | .lock :: c, x => alone c x
  | .unlock :: c, x => alone c x
  | .exec f :: c, x => alone c (f x.1 x.2)

theorem alone_append {σ ρ : Type*} (c d : List (Stmt σ ρ)) (x : σ × ρ) : alone (c ++ d) x = alone d (alone c x) := by
  induction c generalizing x with
  | nil => rfl
  | cons y c ih =>
    cases y with
    | lock => exact ih x
    | unlock => exact ih x
    | exec f => exact ih (f x.1 x.2)

/-- The statements leave the shared memory as it is. -/
def Reads {σ ρ : Type*} (c : List (Stmt σ ρ)) : Prop := ∀ f, .exec f ∈ c → ∀ s r, (f s r).1 = s

namespace Processes

variable {ι σ ρ : Type*} [DecidableEq ι] {handler : ι → List (Stmt σ ρ)} {s s' : Processes ι σ ρ} {i : ι}

/-- Step lemma: where the others only read, a process makes of the shared memory what it does alone. -/
theorem sole_next {t : Turn ι} (hi : t ≠ .signal i) (hh : ∀ j, j ≠ i → Reads (handler j)) (hr : ∀ j, j ≠ i → Reads (s.code j))
    (h : s.next handler t = some s') : (∀ j, j ≠ i → Reads (s'.code j)) ∧
      ∃ done, done ++ s'.code i <+: s.code i ∧ alone done (s.shared, s.regs i) = (s'.shared, s'.regs i) := by
  cases t with
  | step k =>
    obtain ⟨x, c, hx, hcode, hcases⟩ := step_cases h
    have hothers : ∀ j, j ≠ i → Reads (s'.code j) := by
      intro j hj
      by_cases hjk : j = k
      · subst hjk
        rw [step_code h hx]
        have hj := hr j hj
        rw [hx] at hj
        exact fun f hf => hj f (List.mem_cons_of_mem x hf)
      · rw [hcode, Function.update_of_ne hjk]
        exact hr j hj
    refine ⟨hothers, ?_⟩
    by_cases hik : i = k
    · subst hik
      rw [step_code h hx, hx]
      refine ⟨[x], List.prefix_refl _, ?_⟩
      rcases hcases with ⟨rfl, -, -, hs, hregs⟩ | ⟨rfl, -, hs, hregs⟩ | ⟨f, rfl, -, hs, hregs⟩
      · rw [hs, hregs]
        rfl
      · rw [hs, hregs]
        rfl
      · rw [hs, hregs, Function.update_self]
        rfl
    · rw [hcode, Function.update_of_ne hik]
      refine ⟨[], List.prefix_refl _, ?_⟩
      rcases hcases with ⟨-, -, -, hs, hregs⟩ | ⟨-, -, hs, hregs⟩ | ⟨f, rfl, -, hs, hregs⟩
      · rw [hs, hregs]
        rfl
      · rw [hs, hregs]
        rfl
      · rw [hs, hregs, Function.update_of_ne hik, hr k (Ne.symm hik) f (hx ▸ List.mem_cons_self)]
        rfl
  | signal k =>
    obtain rfl := Option.some.inj h
    have hik : i ≠ k := fun he => hi (he ▸ rfl)
    refine ⟨fun j hj => ?_, [], by rw [leave_code_of_ne hik]; exact List.prefix_refl _, rfl⟩
    by_cases hjk : j = k
    · subst hjk
      rw [leave_code_self]
      exact hh j hj
    · rw [leave_code_of_ne hjk]
      exact hr j hj
  | kill k =>
    obtain rfl := Option.some.inj h
    refine ⟨fun j hj => ?_, [], ?_, rfl⟩
    · by_cases hjk : j = k
      · subst hjk
        rw [leave_code_self]
        simp [Reads]
      · rw [leave_code_of_ne hjk]
        exact hr j hj
    · by_cases hik : i = k
      · subst hik
        rw [leave_code_self]
        exact List.nil_prefix
      · rw [leave_code_of_ne hik]
        exact List.prefix_refl _

/-- Run lemma: where the others only read, a process makes of the shared memory what it does alone. -/
theorem sole_run {ts : List (Turn ι)} (hi : .signal i ∉ ts) (hh : ∀ j, j ≠ i → Reads (handler j))
    (hr : ∀ j, j ≠ i → Reads (s.code j)) (h : run handler ts s = some s') :
    ∃ done, done ++ s'.code i <+: s.code i ∧ alone done (s.shared, s.regs i) = (s'.shared, s'.regs i) := by
  induction ts generalizing s with
  | nil =>
    obtain rfl := Option.some.inj h
    exact ⟨[], List.prefix_refl _, rfl⟩
  | cons t ts ih =>
    obtain ⟨s₁, h₁, hrest⟩ := run_cons.mp h
    rw [List.mem_cons, not_or] at hi
    obtain ⟨hi₁, hi⟩ := hi
    obtain ⟨hr₁, done, ⟨e, he⟩, ha⟩ := sole_next (Ne.symm hi₁) hh hr h₁
    obtain ⟨done', hp, ha'⟩ := ih hi hr₁ hrest
    refine ⟨done ++ done', ?_, ?_⟩
    · rw [List.append_assoc, ← he, List.append_assoc]
      exact (List.prefix_append_right_inj done).mpr (hp.trans (List.prefix_append _ e))
    · rw [alone_append, ha, ha']

end Processes

/-! ## What every statement keeps -/

/-- Wherever a process is in its program, `J` holds of what it has for itself, and its statements keep `I` of the shared memory. -/
def Safe {σ ρ : Type*} (I : σ → Prop) (J : ρ → Prop) : List (Stmt σ ρ) → ρ → Prop
  | [], r => J r
  | .lock :: c, r => J r ∧ Safe I J c r
  | .unlock :: c, r => J r ∧ Safe I J c r
  | .exec f :: c, r => J r ∧ ∀ s, I s → I (f s r).1 ∧ Safe I J c (f s r).2

theorem Safe.holds {σ ρ : Type*} {I : σ → Prop} {J : ρ → Prop} {c : List (Stmt σ ρ)} {r : ρ} (h : Safe I J c r) : J r := by
  match c, h with
  | [], h => exact h
  | .lock :: _, h => exact h.1
  | .unlock :: _, h => exact h.1
  | .exec _ :: _, h => exact h.1

namespace Processes

variable {ι σ ρ : Type*} [DecidableEq ι] {handler : ι → List (Stmt σ ρ)} {s s' : Processes ι σ ρ}
  {I : σ → Prop} {J : ι → ρ → Prop}

/-- Step lemma: safety. -/
theorem safe_next (hh : ∀ i r, J i r → Safe I (J i) (handler i) r) {t : Turn ι} (hs : I s.shared)
    (hc : ∀ i, Safe I (J i) (s.code i) (s.regs i)) (h : s.next handler t = some s') :
    I s'.shared ∧ ∀ i, Safe I (J i) (s'.code i) (s'.regs i) := by
  have hothers : ∀ i, i ≠ t.who → Safe I (J i) (s'.code i) (s'.regs i) := by
    intro i hi
    obtain ⟨hcode, hregs⟩ := next_other h hi.symm
    rw [hcode, hregs]
    exact hc i
  suffices hown : I s'.shared ∧ Safe I (J t.who) (s'.code t.who) (s'.regs t.who) by
    refine ⟨hown.1, fun i => ?_⟩
    by_cases hi : i = t.who
    · exact hi ▸ hown.2
    · exact hothers i hi
  cases t with
  | step j =>
    obtain ⟨x, d, hx, -, hcases⟩ := step_cases h
    have hj := hc j
    rw [hx] at hj
    rw [show s'.code (Turn.step j).who = d from step_code h hx]
    rcases hcases with ⟨rfl, -, -, hshared, hr⟩ | ⟨rfl, -, hshared, hr⟩ | ⟨f, rfl, -, hshared, hr⟩
    · rw [hshared, hr]
      exact ⟨hs, hj.2⟩
    · rw [hshared, hr]
      exact ⟨hs, hj.2⟩
    · rw [hshared, hr, show (Turn.step j).who = j from rfl, Function.update_self]
      exact hj.2 s.shared hs
  | signal j =>
    obtain rfl := Option.some.inj h
    refine ⟨hs, ?_⟩
    rw [show (Turn.signal j).who = j from rfl, leave_code_self]
    exact hh j (s.regs j) (hc j).holds
  | kill j =>
    obtain rfl := Option.some.inj h
    refine ⟨hs, ?_⟩
    rw [show (Turn.kill j).who = j from rfl, leave_code_self]
    exact (hc j).holds

/-- Run lemma: safety. -/
theorem safe_run (hh : ∀ i r, J i r → Safe I (J i) (handler i) r) {ts : List (Turn ι)} (hs : I s.shared)
    (hc : ∀ i, Safe I (J i) (s.code i) (s.regs i)) (h : run handler ts s = some s') :
    I s'.shared ∧ ∀ i, Safe I (J i) (s'.code i) (s'.regs i) := by
  induction ts generalizing s with
  | nil =>
    obtain rfl := Option.some.inj h
    exact ⟨hs, hc⟩
  | cons t ts ih =>
    obtain ⟨s₁, h₁, hrest⟩ := run_cons.mp h
    obtain ⟨hs₁, hc₁⟩ := safe_next hh hs hc h₁
    exact ih hs₁ hc₁ hrest

end Processes

end PowerMonitor
