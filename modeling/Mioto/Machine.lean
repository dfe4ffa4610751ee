import Mathlib.Data.List.Basic

/-! Deterministic machines with outputs, their runs, and the rules by which a
fact about one move becomes a fact about a whole run. Nothing here depends on
what the machine computes. -/

/-- A partial step function. `none` means the event is not enabled. -/
structure Machine (σ ε ω : Type*) where
  step : σ → ε → Option (σ × List ω)

structure Move (σ ε ω : Type*) where
  before : σ
  event : ε
  after : σ
  out : List ω

namespace Machine

variable {σ ε ω : Type*} {M : Machine σ ε ω}

def Fires (M : Machine σ ε ω) (m : Move σ ε ω) : Prop :=
  M.step m.before m.event = some (m.after, m.out)

/-- Runs from `s₀` with their history, the latest move first. -/
inductive Run (M : Machine σ ε ω) (s₀ : σ) : List (Move σ ε ω) → σ → Prop
  | nil : Run M s₀ [] s₀
  | cons {h : List (Move σ ε ω)} {m : Move σ ε ω} :
      Run M s₀ h m.before → M.Fires m → Run M s₀ (m :: h) m.after

theorem Run.fires {s₀ s : σ} {h : List (Move σ ε ω)} (hr : M.Run s₀ h s) :
    ∀ m ∈ h, M.Fires m := by
  induction hr with
  | nil => simp
  | cons _ hf ih =>
    intro m hm
    rcases List.mem_cons.mp hm with rfl | hm
    · exact hf
    · exact ih m hm

theorem Run.invariant {I : σ → Prop} {G : Move σ ε ω → Prop} {s₀ s : σ}
    {h : List (Move σ ε ω)} (hr : M.Run s₀ h s) (h0 : I s₀)
    (hs : ∀ m, M.Fires m → G m → I m.before → I m.after) (hg : ∀ m ∈ h, G m) : I s := by
  induction hr with
  | nil => exact h0
  | cons _ hf ih =>
    exact hs _ hf (hg _ List.mem_cons_self)
      (ih (fun m hm => hg m (List.mem_cons_of_mem _ hm)))

theorem Run.before {s₀ s : σ} {h older newer : List (Move σ ε ω)} {m : Move σ ε ω}
    (hr : M.Run s₀ h s) (he : h = newer ++ m :: older) : M.Run s₀ older m.before := by
  induction hr generalizing newer with
  | nil => simp at he
  | cons hr _ ih =>
    cases newer with
    | nil =>
      obtain ⟨rfl, rfl⟩ := List.cons.inj he
      exact hr
    | cons _ newer => exact ih (List.cons.inj he).2

theorem Run.tail {s₀ s : σ} {h : List (Move σ ε ω)} {m : Move σ ε ω} (hr : M.Run s₀ (m :: h) s) :
    M.Run s₀ h m.before :=
  hr.before (List.nil_append _).symm

theorem Run.after {s₀ s : σ} {h older newer : List (Move σ ε ω)} {m : Move σ ε ω}
    (hr : M.Run s₀ h s) (he : h = newer ++ m :: older) : M.Run m.after newer s := by
  induction hr generalizing newer with
  | nil => simp at he
  | cons hr hf ih =>
    cases newer with
    | nil =>
      obtain ⟨rfl, rfl⟩ := List.cons.inj he
      exact .nil
    | cons _ newer =>
      obtain ⟨rfl, htail⟩ := List.cons.inj he
      exact (ih htail).cons hf

theorem Run.forall_iff {P Q : Move σ ε ω → Prop} {s₀ s : σ} {h : List (Move σ ε ω)}
    (hr : M.Run s₀ h s) (hpq : ∀ m, M.Fires m → (P m ↔ Q m)) :
    (∀ m ∈ h, P m) ↔ ∀ m ∈ h, Q m :=
  ⟨fun hp m hm => (hpq m (hr.fires m hm)).mp (hp m hm),
    fun hq m hm => (hpq m (hr.fires m hm)).mpr (hq m hm)⟩

/-- `Q` holds of each move of the history and the moves before it. -/
def Each (Q : List (Move σ ε ω) → Move σ ε ω → Prop) : List (Move σ ε ω) → Prop
  | [] => True
  | m :: older => Q older m ∧ Each Q older

instance Each.decidable {Q : List (Move σ ε ω) → Move σ ε ω → Prop}
    [∀ older m, Decidable (Q older m)] : ∀ h, Decidable (Each Q h)
  | [] => inferInstanceAs (Decidable True)
  | m :: older =>
    have := Each.decidable (Q := Q) older
    inferInstanceAs (Decidable (Q older m ∧ Each Q older))

theorem each_iff {Q : List (Move σ ε ω) → Move σ ε ω → Prop} {h : List (Move σ ε ω)} :
    Each Q h ↔ ∀ newer m older, h = newer ++ m :: older → Q older m := by
  induction h with
  | nil => simp [Each]
  | cons m h ih =>
    rw [Each, ih]
    constructor
    · rintro ⟨hm, hh⟩ (_ | ⟨m', newer⟩) m'' older he
      · obtain ⟨rfl, rfl⟩ := List.cons.inj he
        exact hm
      · exact hh newer m'' older (List.cons.inj he).2
    · exact fun hh => ⟨hh [] m h rfl,
        fun newer m' older he => hh (m :: newer) m' older (by simp [he])⟩

theorem each_iff_mem {Q : Move σ ε ω → Prop} {h : List (Move σ ε ω)} :
    Each (fun _ => Q) h ↔ ∀ m ∈ h, Q m := by
  induction h with
  | nil => simp [Each]
  | cons m h ih => simp [Each, ih]

/-- `P` holds of each state reached and the moves that led there. -/
def Always (P : List (Move σ ε ω) → σ → Prop) (h : List (Move σ ε ω)) : Prop :=
  ∀ newer m older, h = newer ++ m :: older → P (m :: older) m.after

theorem always_iff_each {P : List (Move σ ε ω) → σ → Prop} {h : List (Move σ ε ω)} :
    Always P h ↔ Each (fun older m => P (m :: older) m.after) h :=
  each_iff.symm

theorem Run.of_always {P : List (Move σ ε ω) → σ → Prop} {s₀ s : σ} {h : List (Move σ ε ω)}
    (hr : M.Run s₀ h s) (h0 : P [] s₀) (ha : Always P h) : P h s := by
  cases hr with
  | nil => exact h0
  | cons => exact ha [] _ _ rfl

/-- A law about states and the moves that led there is kept by exactly the moves with `Q`. -/
theorem Run.always_iff {P : List (Move σ ε ω) → σ → Prop}
    {Q : List (Move σ ε ω) → Move σ ε ω → Prop} {s₀ s : σ} {h : List (Move σ ε ω)}
    (hr : M.Run s₀ h s) (h0 : P [] s₀)
    (hs : ∀ older m, M.Run s₀ older m.before → M.Fires m → P older m.before →
      (P (m :: older) m.after ↔ Q older m)) : Always P h ↔ Each Q h := by
  rw [always_iff_each]
  induction hr with
  | nil => rfl
  | @cons h m hr hf ih =>
    simp only [Each]
    rw [ih]
    exact and_congr_left fun hq =>
      hs h m hr hf (hr.of_always h0 (always_iff_each.mpr (ih.mpr hq)))

theorem Run.append {s₀ s₁ s₂ : σ} {h h' : List (Move σ ε ω)}
    (hr : M.Run s₀ h s₁) (hr' : M.Run s₁ h' s₂) : M.Run s₀ (h' ++ h) s₂ := by
  induction hr' with
  | nil => exact hr
  | cons _ hf ih => exact ih.cons hf

theorem Run.project {τ κ υ : Type*} {N : Machine τ κ υ} {f : τ → σ}
    {g : Move τ κ υ → List (Move σ ε ω)}
    (hg : ∀ m, N.Fires m → M.Run (f m.before) (g m) (f m.after))
    {s₀ s : τ} {h : List (Move τ κ υ)} (hr : N.Run s₀ h s) : M.Run (f s₀) (h.flatMap g) (f s) := by
  induction hr with
  | nil => exact .nil
  | cons _ hf ih => exact ih.append (hg _ hf)

def exec (M : Machine σ ε ω) : List (Move σ ε ω) → σ → List ε → Option (List (Move σ ε ω) × σ)
  | h, s, [] => some (h, s)
  | h, s, e :: es =>
    match M.step s e with
    | none => none
    | some (s', o) => M.exec (⟨s, e, s', o⟩ :: h) s' es

theorem exec_cons {s : σ} {e : ε} {r : σ × List ω} (hs : M.step s e = some r)
    (h : List (Move σ ε ω)) (es : List ε) :
    M.exec h s (e :: es) = M.exec (⟨s, e, r.1, r.2⟩ :: h) r.1 es := by
  simp [Machine.exec, hs]

theorem Run.exec {s₀ s s' : σ} {h h' : List (Move σ ε ω)} {es : List ε}
    (hr : M.Run s₀ h s) (he : M.exec h s es = some (h', s')) : M.Run s₀ h' s' := by
  induction es generalizing h s with
  | nil =>
    simp only [Machine.exec, Option.some.injEq, Prod.mk.injEq] at he
    obtain ⟨rfl, rfl⟩ := he
    exact hr
  | cons e es ih =>
    cases hs : M.step s e with
    | none => simp [Machine.exec, hs] at he
    | some r =>
      simp only [Machine.exec, hs] at he
      exact ih (Run.cons (m := ⟨s, e, r.1, r.2⟩) hr hs) he

theorem exec_eq_get {h : List (Move σ ε ω)} {s : σ} {es : List ε}
    (he : (M.exec h s es).isSome) :
    M.exec h s es = some (((M.exec h s es).get he).1, ((M.exec h s es).get he).2) :=
  (Option.some_get he).symm

theorem exec_run {s : σ} {es : List ε} (he : (M.exec [] s es).isSome) :
    M.Run s ((M.exec [] s es).get he).1 ((M.exec [] s es).get he).2 :=
  Run.nil.exec (exec_eq_get he)

end Machine
