import Mathlib.Data.List.Basic

/-! Programs that change a state, put out a list, and do nothing more once the
state has stopped. A property closed under sequencing is proved on the parts. -/

namespace Sequence

variable {σ ω α : Type*} (stop : σ → Bool)

def andThen (r : σ × List ω) (f : σ → σ × List ω) : σ × List ω :=
  if stop r.1 then r else ((f r.1).1, r.2 ++ (f r.1).2)

def runAll (f : σ → α → σ × List ω) : σ → List α → σ × List ω
  | s, [] => (s, [])
  | s, a :: as => andThen stop (f s a) (runAll f · as)

/-- `P s r` may be read as "`r` is what a program leaves when it starts in `s`". -/
structure Closed (P : σ → σ × List ω → Prop) : Prop where
  refl : ∀ s, P s (s, [])
  trans : ∀ {s r r'}, P s r → P r.1 r' → P s (r'.1, r.2 ++ r'.2)

theorem andThen_of_stop {r : σ × List ω} (h : stop r.1 = true) (f : σ → σ × List ω) :
    andThen stop r f = r := if_pos h

theorem andThen_of_go {r : σ × List ω} (h : stop r.1 = false) (f : σ → σ × List ω) :
    andThen stop r f = ((f r.1).1, r.2 ++ (f r.1).2) := if_neg (by simp [h])

@[simp] theorem andThen_pure (r : σ × List ω) : andThen stop r (fun s => (s, [])) = r := by
  unfold andThen
  split <;> simp

@[simp] theorem runAll_nil (f : σ → α → σ × List ω) (s : σ) : runAll stop f s [] = (s, []) := rfl

theorem runAll_cons (f : σ → α → σ × List ω) (s : σ) (a : α) (as : List α) :
    runAll stop f s (a :: as) = andThen stop (f s a) (runAll stop f · as) := rfl

@[simp] theorem runAll_singleton (f : σ → α → σ × List ω) (s : σ) (a : α) :
    runAll stop f s [a] = f s a := andThen_pure stop (f s a)

variable {stop}

theorem Closed.andThen {P : σ → σ × List ω → Prop} (hc : Closed P) {s : σ} {r : σ × List ω}
    {f : σ → σ × List ω} (hr : P s r) (hf : P r.1 (f r.1)) : P s (andThen stop r f) := by
  unfold Sequence.andThen
  split
  · exact hr
  · exact hc.trans hr hf

theorem Closed.runAll {P : σ → σ × List ω → Prop} (hc : Closed P) {f : σ → α → σ × List ω}
    {l : List α} (hf : ∀ s, ∀ a ∈ l, P s (f s a)) (s : σ) : P s (runAll stop f s l) := by
  induction l generalizing s with
  | nil => exact hc.refl s
  | cons a l ih =>
    exact hc.andThen (hf s a List.mem_cons_self)
      (ih (fun s b hb => hf s b (List.mem_cons_of_mem a hb)) _)

/-! Two programs that do the same up to a change of the states and of what is put out. -/

def image {τ υ : Type*} (g : σ → τ) (k : ω → υ) (r : σ × List ω) : τ × List υ := (g r.1, r.2.map k)

variable {τ υ : Type*} {g : σ → τ} {k : ω → υ} {stop' : τ → Bool}

theorem andThen_image (hs : ∀ s, stop' (g s) = stop s) {f : σ → σ × List ω} {f' : τ → τ × List υ}
    (hf : ∀ s, f' (g s) = image g k (f s)) (r : σ × List ω) :
    andThen stop' (image g k r) f' = image g k (andThen stop r f) := by
  unfold andThen
  rw [show stop' (image g k r).1 = stop r.1 from hs r.1]
  split
  · rfl
  · simp [image, hf r.1]

theorem runAll_image {β : Type*} (hs : ∀ s, stop' (g s) = stop s) {f : σ → α → σ × List ω}
    {f' : τ → β → τ × List υ} {j : α → β} (hf : ∀ s a, f' (g s) (j a) = image g k (f s a)) (s : σ)
    (l : List α) : runAll stop' f' (g s) (l.map j) = image g k (runAll stop f s l) := by
  induction l generalizing s with
  | nil => rfl
  | cons a l ih =>
    rw [List.map_cons, runAll_cons, runAll_cons, hf]
    exact andThen_image hs ih _

end Sequence
