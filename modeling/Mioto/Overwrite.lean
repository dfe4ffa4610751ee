import Mathlib.Data.List.Basic

/-! A field that entries set and a load overwrites. Histories list the latest event first,
and nothing here depends on what the events are. -/

namespace Overwrite

variable {α β : Type*} (entry : α → Option β) (loads : α → Bool) (initial loaded : β)

/-- What the field holds after the events of a history. -/
def value : List α → β
  | [] => initial
  | a :: h => (entry a).getD (if loads a then loaded else value h)

/-- A load came after the last entry, or at all if there is no entry. -/
def loadedSince (h : List α) : Bool := (h.takeWhile fun a => (entry a).isNone).any loads

theorem value_eq (h : List α) : value entry loads initial loaded h =
    if loadedSince entry loads h then loaded else (h.findSome? entry).getD initial := by
  induction h with
  | nil => rfl
  | cons a h ih =>
    cases he : entry a with
    | some x => simp [value, loadedSince, he]
    | none =>
      cases hl : loads a with
      | true => simp [value, loadedSince, he, hl]
      | false =>
        simp only [value, he, hl, Bool.false_eq_true, if_false, ih, List.findSome?_cons]
        simp [loadedSince, he, hl]

/-- The field holds the last entry, or what a load gives where nothing was entered. -/
theorem value_eq_entry_iff (h : List α) :
    value entry loads initial loaded h = (h.findSome? entry).getD loaded ↔
      (∀ x, h.findSome? entry = some x → loadedSince entry loads h → x = loaded) ∧
        (h.findSome? entry = none → loadedSince entry loads h ∨ initial = loaded) := by
  rw [value_eq]
  cases h.findSome? entry <;> cases loadedSince entry loads h <;> simp [eq_comm]

end Overwrite
