import Mioto.Machine

/-! Memory that is written by what the steps of a machine put out. Whatever writes there are
besides, a register holds what was last written to it. -/

namespace Machine

variable {σ ε ω ι α : Type*} {M : Machine σ ε ω} (writes : ω → ι → Option α)

/-- What the registers hold once all of `o` is written, the head first. -/
def replay (mem : ι → α) : List ω → ι → α
  | [] => mem
  | w :: o => replay (fun i => (writes w i).getD (mem i)) o

theorem replay_append (mem : ι → α) (o o' : List ω) :
    replay writes mem (o ++ o') = replay writes (replay writes mem o) o' := by
  induction o generalizing mem with
  | nil => rfl
  | cons w o ih => exact ih _

theorem replay_apply (mem : ι → α) (o : List ω) (i : ι) :
    replay writes mem o i = (o.reverse.findSome? (writes · i)).getD (mem i) := by
  induction o generalizing mem with
  | nil => rfl
  | cons w o ih =>
    rw [replay, ih, List.reverse_cons, List.findSome?_append]
    cases o.reverse.findSome? (writes · i) with
    | none => cases hw : writes w i <;> simp [hw]
    | some x => rfl

/-- The last write to a register in a history, which lists the latest move first. -/
def lastWrite (h : List (Move σ ε ω)) (i : ι) : Option α :=
  h.findSome? fun m => m.out.reverse.findSome? (writes · i)

theorem Run.registers (mem : σ → ι → α)
    (hs : ∀ m, M.Fires m → mem m.after = replay writes (mem m.before) m.out) {s₀ s : σ}
    {h : List (Move σ ε ω)} (hr : M.Run s₀ h s) (i : ι) :
    mem s i = (lastWrite writes h i).getD (mem s₀ i) := by
  induction hr with
  | nil => rfl
  | @cons h m _ hf ih =>
    rw [hs m hf, replay_apply, ih]
    unfold lastWrite
    rw [List.findSome?_cons]
    cases m.out.reverse.findSome? (writes · i) <;> rfl

end Machine
