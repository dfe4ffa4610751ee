import Mioto.Machine
import Mioto.Sequence

/-! Two executions side by side. Programs that start in related states and make
related outputs stay related under sequencing; a machine runs twice on the same
events, and what relates the two runs is an invariant of the pair. -/

namespace Sequence

variable {σ ω α : Type*} {stop : σ → Bool}

def Agree (R : σ → σ → Prop) (Q : List ω → List ω → Prop) (r r' : σ × List ω) : Prop :=
  R r.1 r'.1 ∧ Q r.2 r'.2

structure Related (stop : σ → Bool) (R : σ → σ → Prop) (Q : List ω → List ω → Prop) : Prop where
  stop : ∀ {a b}, R a b → stop a = stop b
  nil : Q [] []
  append : ∀ {o o' p p'}, Q o o' → Q p p' → Q (o ++ p) (o' ++ p')

variable {R : σ → σ → Prop} {Q : List ω → List ω → Prop}

theorem Related.andThen (h : Related stop R Q) {r r' : σ × List ω} {f g : σ → σ × List ω}
    (hr : Agree R Q r r') (hf : stop r.1 = false → R r.1 r'.1 → Agree R Q (f r.1) (g r'.1)) :
    Agree R Q (andThen stop r f) (andThen stop r' g) := by
  have hs := h.stop hr.1
  cases hb : stop r'.1 with
  | true =>
    rw [andThen_of_stop stop (hs.trans hb), andThen_of_stop stop hb]
    exact hr
  | false =>
    rw [andThen_of_go stop (hs.trans hb), andThen_of_go stop hb]
    have hfg := hf (hs.trans hb) hr.1
    exact ⟨hfg.1, h.append hr.2 hfg.2⟩

theorem Related.runAll (h : Related stop R Q) {f g : σ → α → σ × List ω} {l : List α}
    (hl : ∀ x ∈ l, ∀ s s', R s s' → Agree R Q (f s x) (g s' x)) {s s' : σ} (hs : R s s') :
    Agree R Q (runAll stop f s l) (runAll stop g s' l) := by
  induction l generalizing s s' with
  | nil => exact ⟨hs, h.nil⟩
  | cons x l ih =>
    rw [runAll_cons, runAll_cons]
    exact h.andThen (hl x List.mem_cons_self s s' hs) fun _ =>
      ih fun y hy => hl y (List.mem_cons_of_mem x hy)

end Sequence

inductive Side (ε : Type*)
  | both (e : ε)
  | left (e : ε)
  | right (e : ε)

def Side.shared {ε : Type*} : Side ε → Option ε
  | .both e => some e
  | _ => none

namespace Machine

variable {σ ε ω : Type*} {M : Machine σ ε ω}

/-- A machine and its copy. Each move puts out what the two of them put out. -/
def twin (M : Machine σ ε ω) : Machine (σ × σ) (Side ε) (List ω × List ω) where
  step s
    | .both e => (M.step s.1 e).bind fun r => (M.step s.2 e).map fun r' =>
        ((r.1, r'.1), [(r.2, r'.2)])
    | .left e => (M.step s.1 e).map fun r => ((r.1, s.2), [(r.2, [])])
    | .right e => (M.step s.2 e).map fun r => ((s.1, r.1), [([], r.2)])

theorem twin_fires {m : Move (σ × σ) (Side ε) (List ω × List ω)} (hm : M.twin.Fires m) :
    (∃ e r r', m.event = .both e ∧ M.step m.before.1 e = some r ∧
      M.step m.before.2 e = some r' ∧ m.after = (r.1, r'.1) ∧ m.out = [(r.2, r'.2)]) ∨
    (∃ e r, m.event = .left e ∧ M.step m.before.1 e = some r ∧
      m.after = (r.1, m.before.2) ∧ m.out = [(r.2, [])]) ∨
    ∃ e r, m.event = .right e ∧ M.step m.before.2 e = some r ∧
      m.after = (m.before.1, r.1) ∧ m.out = [([], r.2)] := by
  unfold Fires twin at hm
  cases he : m.event with
  | both e =>
    simp only [he] at hm
    obtain ⟨r, hr, hm⟩ := Option.bind_eq_some_iff.mp hm
    obtain ⟨r', hr', hm⟩ := Option.map_eq_some_iff.mp hm
    obtain ⟨ha, ho⟩ := Prod.mk.inj hm
    exact .inl ⟨e, r, r', rfl, hr, hr', ha.symm, ho.symm⟩
  | left e =>
    simp only [he] at hm
    obtain ⟨r, hr, hm⟩ := Option.map_eq_some_iff.mp hm
    obtain ⟨ha, ho⟩ := Prod.mk.inj hm
    exact .inr (.inl ⟨e, r, rfl, hr, ha.symm, ho.symm⟩)
  | right e =>
    simp only [he] at hm
    obtain ⟨r, hr, hm⟩ := Option.map_eq_some_iff.mp hm
    obtain ⟨ha, ho⟩ := Prod.mk.inj hm
    exact .inr (.inr ⟨e, r, rfl, hr, ha.symm, ho.symm⟩)

/-- A state invariant and a property of moves: if every move that satisfies `G` from
inside the invariant stays inside it and has the property, so does every move of a run
whose moves all satisfy `G`. -/
theorem Run.unwind {I : σ → Prop} {G P : Move σ ε ω → Prop} {s₀ s : σ} {h : List (Move σ ε ω)}
    (hr : M.Run s₀ h s) (h0 : I s₀)
    (hs : ∀ m, M.Fires m → G m → I m.before → I m.after ∧ P m) (hg : ∀ m ∈ h, G m) :
    I s ∧ ∀ m ∈ h, P m := by
  induction hr with
  | nil => exact ⟨h0, by simp⟩
  | cons _ hf ih =>
    obtain ⟨hi, hp⟩ := ih fun m hm => hg m (List.mem_cons_of_mem _ hm)
    have hm := hs _ hf (hg _ List.mem_cons_self) hi
    exact ⟨hm.1, List.forall_mem_cons.mpr ⟨hm.2, hp⟩⟩

end Machine
