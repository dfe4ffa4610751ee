import Mioto.Machine

/-! A machine that drives another one. Each of its moves comes with the steps it calls for in
the other, which takes the rest of its steps by itself. -/

theorem Machine.events_exec {σ ε ω : Type*} {M : Machine σ ε ω} {s s' : σ} {es : List ε}
    {h h' : List (Move σ ε ω)} (he : M.exec h s es = some (h', s')) :
    h'.map Move.event = es.reverse ++ h.map Move.event := by
  induction es generalizing h s with
  | nil =>
    simp only [Machine.exec, Option.some.injEq, Prod.mk.injEq] at he
    simp [he.1]
  | cons e es ih =>
    cases hs : M.step s e with
    | none => simp [Machine.exec, hs] at he
    | some r =>
      rw [exec_cons hs] at he
      simpa using ih he

/-- `calls m ks` may be read as "the move `m` calls for the steps `ks`", and `free` are the
steps that the driven machine may take by itself. -/
structure Drive {σ ε ω τ κ υ : Type*} (M : Machine σ ε ω) (N : Machine τ κ υ) where
  calls : Move σ ε ω → List κ → Bool
  free : σ → κ → Bool

inductive DriveEvent (ε κ : Type*)
  | drive (e : ε) (ks : List κ)
  | own (k : κ)
  deriving DecidableEq

namespace Drive

variable {σ ε ω τ κ υ : Type*} {M : Machine σ ε ω} {N : Machine τ κ υ}

/-- What is put out are the moves of both. -/
def step (D : Drive M N) (s : σ × τ) :
    DriveEvent ε κ → Option ((σ × τ) × List (Move σ ε ω ⊕ Move τ κ υ))
  | .drive e ks =>
    (M.step s.1 e).bind fun r =>
      if D.calls ⟨s.1, e, r.1, r.2⟩ ks then
        (N.exec [] s.2 ks).map fun x =>
          ((r.1, x.2), .inl ⟨s.1, e, r.1, r.2⟩ :: x.1.map .inr)
      else none
  | .own k =>
    if D.free s.1 k then
      (N.step s.2 k).map fun r => ((s.1, r.1), [.inr ⟨s.2, k, r.1, r.2⟩])
    else none

def machine (D : Drive M N) : Machine (σ × τ) (DriveEvent ε κ) (Move σ ε ω ⊕ Move τ κ υ) :=
  ⟨D.step⟩

section

variable (h : List (Move (σ × τ) (DriveEvent ε κ) (Move σ ε ω ⊕ Move τ κ υ)))

def driver : List (Move σ ε ω) := h.flatMap fun m => m.out.filterMap Sum.getLeft?

def driven : List (Move τ κ υ) := h.flatMap fun m => m.out.filterMap Sum.getRight?

end

/-- A move of the two: the driver moves and the other follows, or the other moves by itself. -/
inductive Moved (D : Drive M N) (m : Move (σ × τ) (DriveEvent ε κ) (Move σ ε ω ⊕ Move τ κ υ)) :
    Prop
  | drive (mv : Move σ ε ω) {ks : List κ} {g : List (Move τ κ υ)} (hm : M.Fires mv)
      (hb : mv.before = m.before.1) (ha : mv.after = m.after.1) (hc : D.calls mv ks = true)
      (hg : N.exec [] m.before.2 ks = some (g, m.after.2)) (ho : m.out = .inl mv :: g.map .inr)
  | own (nv : Move τ κ υ) (hn : N.Fires nv) (hf : D.free m.before.1 nv.event = true)
      (hb : nv.before = m.before.2) (ha : nv.after = m.after.2) (hs : m.after.1 = m.before.1)
      (ho : m.out = [.inr nv])

theorem moved {D : Drive M N} {m : Move (σ × τ) (DriveEvent ε κ) (Move σ ε ω ⊕ Move τ κ υ)}
    (hm : D.machine.Fires m) : D.Moved m := by
  have hstep : D.step m.before m.event = some (m.after, m.out) := hm
  cases he : m.event with
  | drive e ks =>
    rw [he] at hstep
    obtain ⟨r, hr, hstep⟩ := Option.bind_eq_some_iff.mp hstep
    obtain ⟨hc, hstep⟩ := Option.ite_none_right_eq_some.mp hstep
    obtain ⟨x, hx, hmade⟩ := Option.map_eq_some_iff.mp hstep
    obtain ⟨hafter, hout⟩ := Prod.mk.inj hmade
    refine .drive ⟨m.before.1, e, r.1, r.2⟩ hr rfl (congrArg Prod.fst hafter) hc ?_ hout.symm
    rw [hx, ← hafter]
  | own k =>
    rw [he] at hstep
    obtain ⟨hf, hstep⟩ := Option.ite_none_right_eq_some.mp hstep
    obtain ⟨r, hr, hmade⟩ := Option.map_eq_some_iff.mp hstep
    obtain ⟨hafter, hout⟩ := Prod.mk.inj hmade
    exact .own ⟨m.before.2, k, r.1, r.2⟩ hr hf rfl (congrArg Prod.snd hafter)
      (congrArg Prod.fst hafter).symm hout.symm

variable {D : Drive M N} {s₀ s : σ × τ}
  {h : List (Move (σ × τ) (DriveEvent ε κ) (Move σ ε ω ⊕ Move τ κ υ))}

theorem filterMap_getLeft (mv : Move σ ε ω) (g : List (Move τ κ υ)) :
    (Sum.inl mv :: g.map Sum.inr).filterMap Sum.getLeft? = [mv] := by
  simp [List.filterMap_map, Function.comp_def]

theorem filterMap_getRight (mv : Move σ ε ω) (g : List (Move τ κ υ)) :
    (Sum.inl mv :: g.map Sum.inr).filterMap Sum.getRight? = g := by
  simp [List.filterMap_cons, List.filterMap_map, Function.comp_def]

theorem run_driver (hr : D.machine.Run s₀ h s) : M.Run s₀.1 (driver h) s.1 := by
  refine hr.project fun m hm => ?_
  cases moved hm with
  | drive mv hmv hb ha hc hg ho =>
    rw [ho, filterMap_getLeft, ← hb, ← ha]
    exact .cons .nil hmv
  | own nv hn hf hb ha hs ho =>
    rw [ho, hs]
    exact .nil

theorem run_driven (hr : D.machine.Run s₀ h s) : N.Run s₀.2 (driven h) s.2 := by
  refine hr.project fun m hm => ?_
  cases moved hm with
  | drive mv hmv hb ha hc hg ho =>
    rw [ho, filterMap_getRight]
    exact Machine.Run.nil.exec hg
  | own nv hn hf hb ha hs ho =>
    rw [ho, ← hb, ← ha]
    exact .cons .nil hn

end Drive
