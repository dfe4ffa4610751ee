import Mathlib.Algebra.BigOperators.Group.List.Basic
import Mathlib.Algebra.GroupWithZero.Nat

/-! Taking elements from the front of a list until the weight of what is left is below a bound.
Elements that cannot be taken stay. -/

namespace Trimming

variable {α : Type*} (weight : α → ℕ) (movable : α → Bool) (bound : ℕ)

/-- What is taken and what is left; `n` is the weight before. -/
def trim : ℕ → List α → List α × List α
  | _, [] => ([], [])
  | n, a :: l =>
    if movable a then
      if n - weight a < bound then ([a], l)
      else (a :: (trim (n - weight a) l).1, (trim (n - weight a) l).2)
    else ((trim n l).1, a :: (trim n l).2)

variable {weight movable bound}

theorem trim_perm (n : ℕ) (l : List α) :
    ((trim weight movable bound n l).1 ++ (trim weight movable bound n l).2).Perm l := by
  induction l generalizing n with
  | nil => exact .refl _
  | cons a l ih =>
    simp only [trim]
    split_ifs
    · exact .refl _
    · exact (ih _).cons a
    · exact List.perm_middle.trans ((ih n).cons a)

theorem movable_of_mem_trim {n : ℕ} {l : List α} {a : α}
    (ha : a ∈ (trim weight movable bound n l).1) : movable a = true := by
  induction l generalizing n with
  | nil => simp [trim] at ha
  | cons b l ih =>
    simp only [trim] at ha
    split_ifs at ha with hb
    · rwa [List.mem_singleton.mp ha]
    · rcases List.mem_cons.mp ha with rfl | ha
      · exact hb
      · exact ih ha
    · exact ih ha

/-- What is taken comes before all that is left and could have been taken. -/
theorem trim_ordered {r : α → α → Prop} {l : List α} (hl : l.Pairwise r) {n : ℕ} {a b : α}
    (ha : a ∈ (trim weight movable bound n l).1) (hb : b ∈ (trim weight movable bound n l).2)
    (hm : movable b = true) : r a b := by
  induction l generalizing n with
  | nil => simp [trim] at ha
  | cons c l ih =>
    obtain ⟨hc, hl⟩ := List.pairwise_cons.mp hl
    have hmem : ∀ n, ∀ x ∈ (trim weight movable bound n l).2, x ∈ l := fun n x hx =>
      (trim_perm n l).subset (List.mem_append_right _ hx)
    simp only [trim] at ha hb
    split_ifs at ha hb with hmc
    · obtain rfl := List.mem_singleton.mp ha
      exact hc b hb
    · rcases List.mem_cons.mp ha with rfl | ha
      · exact hc b (hmem _ b hb)
      · exact ih hl ha hb
    · rcases List.mem_cons.mp hb with rfl | hb
      · exact absurd hm hmc
      · exact ih hl ha hb

section

variable {n rest : ℕ} {l : List α}

/-- `rest` is the weight of what was left before. -/
theorem trim_light (hn : n = rest + (l.map weight).sum) :
    rest + ((trim weight movable bound n l).2.map weight).sum < bound ∨
      ∀ a ∈ (trim weight movable bound n l).2, movable a = false := by
  induction l generalizing n rest with
  | nil => exact .inr (by simp [trim])
  | cons a l ih =>
    simp only [List.map_cons, List.sum_cons] at hn
    simp only [trim]
    split_ifs with hm hlt
    · exact .inl (by simp only; omega)
    · exact ih (by omega)
    · have hh := @ih n (rest + weight a) (by omega)
      simp only [List.map_cons, List.sum_cons, List.forall_mem_cons]
      rcases hh with hh | hh
      · exact .inl (by omega)
      · exact .inr ⟨by simpa using hm, hh⟩

/-- Without its last element what was taken would not have been enough. -/
theorem trim_needed (hn : n = rest + (l.map weight).sum) (hb : bound ≤ n) {taken : List α} {a : α}
    (ht : (trim weight movable bound n l).1 = taken ++ [a]) :
    bound ≤ rest + ((trim weight movable bound n l).2.map weight).sum + weight a := by
  induction l generalizing n rest taken with
  | nil => simp [trim] at ht
  | cons b l ih =>
    simp only [List.map_cons, List.sum_cons] at hn
    simp only [trim] at ht ⊢
    split_ifs at ht ⊢ with hm hlt
    · obtain ⟨-, rfl⟩ : taken = [] ∧ a = b := by simpa using List.append_eq_singleton_iff.mp ht.symm
      simp only
      omega
    · cases taken with
      | nil =>
        obtain ⟨rfl, hnil⟩ := List.cons.inj ht
        have hperm : ((trim weight movable bound (n - weight b) l).1 ++
          (trim weight movable bound (n - weight b) l).2).Perm l := trim_perm _ l
        rw [hnil, List.nil_append] at hperm
        have hleft := (hperm.map weight).sum_eq
        simp only
        omega
      | cons c taken => exact ih (by omega) (by omega) (List.cons.inj ht).2
    · simp only [List.map_cons, List.sum_cons]
      have hh := @ih n (rest + weight b) (by omega) hb taken ht
      omega

end

end Trimming
