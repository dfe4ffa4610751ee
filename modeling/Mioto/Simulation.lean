import Mioto.Machine
import Mathlib.Algebra.BigOperators.Group.List.Basic
import Mathlib.Algebra.GroupWithZero.Nat
import Mathlib.Data.List.Forall2

/-! Two machines compared over whole runs, and runs measured by a weight. Nothing here
depends on what the machines compute. -/

namespace Machine

variable {σ ε ω τ κ υ : Type*} {M : Machine σ ε ω} {N : Machine τ κ υ}

/-- What holds of the events of a script holds of the moves that it makes. -/
theorem forall_exec {P : ε → Prop} {s : σ} {es : List ε} (hes : ∀ e ∈ es, P e)
    {h h' : List (Move σ ε ω)} {s' : σ} (he : M.exec h s es = some (h', s'))
    (hh : ∀ m ∈ h, P m.event) : ∀ m ∈ h', P m.event := by
  induction es generalizing h s with
  | nil =>
    simp only [Machine.exec, Option.some.injEq, Prod.mk.injEq] at he
    exact he.1 ▸ hh
  | cons e es ih =>
    obtain ⟨hP, hes⟩ := List.forall_mem_cons.mp hes
    cases hs : M.step s e with
    | none => simp [Machine.exec, hs] at he
    | some r =>
      rw [exec_cons hs] at he
      exact ih hes he (List.forall_mem_cons.mpr ⟨hP, hh⟩)

/-- Moves of `N` followed one by one in `M`. `T` is what is known of the moves of `M` that
follow a move of `N`. -/
theorem Run.simulate {R : τ → σ → Prop} {T : Move τ κ υ → List (Move σ ε ω) → Prop}
    (hs : ∀ m s, N.Fires m → R m.before s → ∃ g s', M.Run s g s' ∧ R m.after s' ∧ T m g)
    {t₀ t : τ} {h : List (Move τ κ υ)} (hr : N.Run t₀ h t) {s₀ : σ} (h0 : R t₀ s₀) :
    ∃ gs s, M.Run s₀ gs.flatten s ∧ R t s ∧ List.Forall₂ T h gs := by
  induction hr with
  | nil => exact ⟨[], s₀, .nil, h0, .nil⟩
  | @cons h m _ hf ih =>
    obtain ⟨gs, s, hrun, hR, hT⟩ := ih
    obtain ⟨g, s', hg, hR', hT'⟩ := hs m s hf hR
    exact ⟨g :: gs, s', hrun.append hg, hR', .cons hT' hT⟩

/-- What one part of `N` has gone through since it last started, as a run of `M`. `T` is what
is known of the moves of `M` that a move of `N` amounts to there. -/
theorem Run.view (sees : τ → σ) (live : σ → Prop) {starts : σ → Prop}
    {T : Move τ κ υ → List (Move σ ε ω) → Prop}
    (hs : ∀ m, N.Fires m → live (sees m.after) → starts (sees m.after) ∨
      live (sees m.before) ∧ ∃ g, M.Run (sees m.before) g (sees m.after) ∧ T m g)
    {t₀ t : τ} {h : List (Move τ κ υ)} (hr : N.Run t₀ h t) (h0 : starts (sees t₀))
    (hl : live (sees t)) :
    ∃ t₁ newer older gs, h = newer ++ older ∧ N.Run t₀ older t₁ ∧ starts (sees t₁) ∧
      M.Run (sees t₁) gs.flatten (sees t) ∧ List.Forall₂ T newer gs := by
  induction hr with
  | nil => exact ⟨t₀, [], [], [], rfl, .nil, h0, .nil, .nil⟩
  | @cons h m hr hf ih =>
    rcases hs m hf hl with hst | ⟨hl', g, hg, hT⟩
    · exact ⟨m.after, [], m :: h, [], rfl, hr.cons hf, hst, .nil, .nil⟩
    · obtain ⟨t₁, newer, older, gs, rfl, hr₁, hst, hrun, hgs⟩ := ih hl'
      exact ⟨t₁, m :: newer, older, g :: gs, rfl, hr₁, hst, hrun.append hg, .cons hT hgs⟩

/-- A renaming of states, events and outputs that the machine does not notice. -/
structure Symmetry (M : Machine σ ε ω) where
  state : σ → σ
  event : ε → ε
  output : ω → ω
  step : ∀ s e, M.step (state s) (event e) =
    (M.step s e).map fun r => (state r.1, r.2.map output)

def Symmetry.move (φ : Symmetry M) (m : Move σ ε ω) : Move σ ε ω :=
  ⟨φ.state m.before, φ.event m.event, φ.state m.after, m.out.map φ.output⟩

/-- Steps that settle are paid out of a weight, to which each step of another kind adds at most
`n`. -/
theorem Run.weigh {weight : σ → ℕ} {n : ℕ} {s₀ s : σ} {h : List (Move σ ε ω)}
    (hr : M.Run s₀ h s) (settles brings : ε → Bool)
    (hs : ∀ older m, M.Run s₀ older m.before → M.Fires m →
      weight m.after + (if settles m.event then 1 else 0) ≤
        weight m.before + if brings m.event then n else 0) :
    weight s + h.countP (settles ·.event) ≤ weight s₀ + n * h.countP (brings ·.event) := by
  induction hr with
  | nil => simp
  | @cons h m hr hf ih =>
    have hm := hs h m hr hf
    simp only [List.countP_cons, Nat.mul_add, mul_ite, Nat.mul_one, Nat.mul_zero]
    omega

/-- Where a state that has not come to rest always has a step that settles, and such a step
makes it lighter, steps of that kind bring it to rest. -/
theorem exists_run_to_rest {I rest : σ → Prop} {settles : ε → Bool} {weight : σ → ℕ}
    (hw : ∀ m, M.Fires m → I m.before → settles m.event →
      I m.after ∧ weight m.after < weight m.before)
    (hs : ∀ s, I s → ¬ rest s → ∃ e r, settles e ∧ M.step s e = some r) {s : σ} (hI : I s) :
    ∃ h s', M.Run s h s' ∧ (∀ m ∈ h, settles m.event) ∧ rest s' := by
  induction hn : weight s using Nat.strongRecOn generalizing s with
  | ind n ih =>
    by_cases hr : rest s
    · exact ⟨[], s, .nil, by simp, hr⟩
    · obtain ⟨e, r, he, hstep⟩ := hs s hI hr
      have hf : M.Fires ⟨s, e, r.1, r.2⟩ := hstep
      obtain ⟨hI', hlt⟩ := hw _ hf hI he
      obtain ⟨h, s', hrun, hC, hr'⟩ := ih _ (hn ▸ hlt) hI' rfl
      have hone : M.Run s [⟨s, e, r.1, r.2⟩] r.1 := .cons .nil hf
      refine ⟨h ++ [⟨s, e, r.1, r.2⟩], s', hone.append hrun, ?_, hr'⟩
      simpa [or_imp, forall_and] using ⟨hC, he⟩

end Machine
