import Mioto.AppResidue

/-! Child-added events in two apps side by side. An app cannot be told from one that
only does what its observers do, so two apps whose observers do the same stay alike. -/

namespace Mioto

/-- What the block of an observer does when it is called for child `v`: `some d` is a
report, `none` the failure on a leaf. -/
def Service.reaction (s : Service) (v : Uid) (ob : Observer) : Option (Option Dict) :=
  if v ∈ ob.reported then none
  else
    match s.users v with
    | .null => none
    | .leaf _ => some none
    | .dict d => if ob.accepts d then some (some d) else none

namespace Service

theorem told_of_step {s : Service} {o : Nat} {v : Uid} {r : Done}
    (h : s.step (.childAdded o v) = some r) : Told s r.1 o := by
  obtain ⟨-, ob, -, hc⟩ := step_childAdded h
  obtain ⟨-, -, rfl⟩ := reportChild_eq_some hc
  have hset : ∀ o' ≠ o, (s.observers.set o
      { ob with reported := ob.reported ++ [v] })[o']? = s.observers[o']? :=
    fun o' ho => List.getElem?_set_ne (Ne.symm ho)
  cases s.users v with
  | dict d =>
    simp only [childAdded]
    split <;> exact ⟨rfl, rfl, hset⟩
  | null | leaf => exact ⟨rfl, rfl, hset⟩

theorem childAdded_reaction {s : Service} {o : Nat} {v : Uid} {r : Done}
    (h : s.step (.childAdded o v) = some r) :
    match (s.observers[o]?).bind (s.reaction v) with
    | none => s.announced (.childAdded o v) = none ∧ s.Alike (fun _ => False) r.1
    | some none => s.announced (.childAdded o v) = none ∧
        { s with raised := some .unrecognizedSelector }.Alike (fun _ => False) r.1
    | some (some d) =>
      s.announced (.childAdded o v) = some (.successProfileWith (transformUser d)) ∧
        s.Alike (fun _ => False) r.1 := by
  obtain ⟨-, ob, hob, hc⟩ := step_childAdded h
  obtain ⟨hrep, hnull, rfl⟩ := reportChild_eq_some hc
  simp only [hob, Option.bind_some, reaction, if_neg hrep, announced, reports]
  cases hv : s.users v with
  | null => exact absurd hv hnull
  | leaf => exact ⟨rfl, ⟨rfl, rfl, rfl, rfl, rfl, fun _ => False.elim⟩⟩
  | dict d =>
    by_cases ha : ob.accepts d = true
    · simp only [childAdded, ha, if_true]
      exact ⟨rfl, ⟨rfl, rfl, rfl, rfl, rfl, fun _ => False.elim⟩⟩
    · simp only [childAdded, ha]
      exact ⟨rfl, ⟨rfl, rfl, rfl, rfl, rfl, fun _ => False.elim⟩⟩

theorem childAdded_writes {s : Service} {o : Nat} {v : Uid} {r : Done}
    (h : s.step (.childAdded o v) = some r) : r.2.filter Effect.writes = [] := by
  obtain ⟨-, ob, -, hc⟩ := step_childAdded h
  obtain ⟨-, -, rfl⟩ := reportChild_eq_some hc
  cases s.users v with
  | dict d =>
    simp only [childAdded]
    split <;> rfl
  | null | leaf => rfl

theorem reaction_of_step_none {s : Service} (hn : s.raised = none) {o : Nat} {v : Uid}
    (h : s.step (.childAdded o v) = none) : (s.observers[o]?).bind (s.reaction v) = none := by
  cases hob : s.observers[o]? with
  | none => rfl
  | some ob =>
    simp only [step, hn, Option.isSome_none, Bool.false_eq_true, if_false, hob, Option.bind_some,
      reportChild] at h
    split_ifs at h with hc
    simp only [Option.bind_some, reaction]
    split
    · rfl
    · next hr => rw [hc.resolve_left hr]

end Service

namespace App

def listens (s : App) : Bool := s.fireBaseListener.any fun i => (s.screens i).isSome

def react (t : String) (fresh : List ScreenId) (s : App) : Option Dict → Outcome
  | some d => deliver t fresh s (.successProfileWith (transformUser d))
  | none => ({ s with service := { s.service with raised := some .unrecognizedSelector } }, [])

section

variable {old : ScreenId → Bool} {a b s : App} {t : String} {fresh : List ScreenId} {v : Uid}

theorem tell_of_step_none {o : Nat} (h : s.service.step (.childAdded o v) = none) :
    tell t fresh v s o = (s, []) := by
  rw [tell, settle_of_silent (by simp [serve, h])]
  simp only [serve, h]

theorem tell_service (hs : s.raised = none) {o : Nat} {r : Done}
    (h : s.service.step (.childAdded o v) = some r) :
    (tell t fresh v s o).1.service = r.1 := by
  cases hm : s.service.announced (.childAdded o v) with
  | none => rw [tell, settle_serve_of_none hm, serve_of_step h]
  | some m =>
    obtain ⟨d, -, rfl⟩ := Option.map_eq_some_iff.mp hm
    rw [tell, settle_serve_of_some hs h hm, deliver_successProfile]
    split <;> rfl

theorem reaction_tell (hs : s.raised = none) {o o' : Nat} (ho : o' ≠ o) :
    ((tell t fresh v s o).1.service.observers[o']?).bind
        ((tell t fresh v s o).1.service.reaction v) =
      (s.service.observers[o']?).bind (s.service.reaction v) := by
  cases hr : s.service.step (.childAdded o v) with
  | none => rw [tell_of_step_none hr]
  | some r =>
    have htold := Service.told_of_step hr
    rw [tell_service hs hr, htold.others o' ho]
    congr 1
    funext ob
    simp only [Service.reaction, htold.users]

theorem Alike.tell_of_none (h : Alike old (fun _ => False) s b) {o : Nat}
    (hx : (s.service.observers[o]?).bind (s.service.reaction v) = none) :
    Same old (fun _ => False) (tell t fresh v s o) (b, []) := by
  cases hr : s.service.step (.childAdded o v) with
  | none =>
    rw [tell_of_step_none hr]
    exact ⟨h, rfl⟩
  | some r =>
    have hd := Service.childAdded_reaction hr
    rw [hx] at hd
    rw [tell, settle_serve_of_none hd.1, serve_of_step hr]
    refine ⟨{ h with service := hd.2.symm.trans h.service }, ?_⟩
    exact (writes_service _ _).trans (by rw [Service.childAdded_writes hr]; rfl)

theorem Alike.tell_of_some (h : Alike old (fun _ => False) s b) (hs : s.raised = none)
    (hn : s.service.raised = none) (hf : ∀ j ∈ fresh, old j = false) {o : Nat}
    {x : Option Dict} (hx : (s.service.observers[o]?).bind (s.service.reaction v) = some x) :
    Same old (fun _ => False) (tell t fresh v s o) (react t fresh b x) := by
  cases hr : s.service.step (.childAdded o v) with
  | none => simp [Service.reaction_of_step_none hn hr] at hx
  | some r =>
    have hd := Service.childAdded_reaction hr
    rw [hx] at hd
    have hw : ∀ out,
        writes (.service ⟨s.service, .childAdded o v, r.1, r.2⟩ :: out) = writes out := by
      intro out
      rw [writes_service, Service.childAdded_writes hr]
      rfl
    cases x with
    | none =>
      rw [tell, settle_serve_of_none hd.1, serve_of_step hr]
      have hsv : { s.service with raised := some .unrecognizedSelector }.Alike (fun _ => False)
          { b.service with raised := some .unrecognizedSelector } :=
        { h.service with raised := rfl }
      exact ⟨{ h with service := hd.2.symm.trans hsv }, hw _⟩
    | some d =>
      rw [tell, settle_serve_of_some hs hr hd.1]
      have hp : Alike old (fun _ => False) { s with service := r.1 } b :=
        { h with service := hd.2.symm.trans h.service }
      have hdel := hp.deliver t hf (m := .successProfileWith (transformUser d)) fun x _ f hrf => by
        obtain ⟨i, sc⟩ := x
        cases sc <;> simp [Screen.reads] at hrf
      exact ⟨hdel.1, (hw _).trans hdel.2⟩

def reactions (s : App) (v : Uid) (l : List Nat) : List (Option Dict) :=
  l.filterMap fun o => (s.service.observers[o]?).bind (s.service.reaction v)

theorem Alike.runAll_tell {l : List Nat} (hnd : l.Nodup) (h : Alike old (fun _ => False) s b)
    (hc : s.crashed = false) (hf : ∀ j ∈ fresh, old j = false) :
    Same old (fun _ => False) (runAll (tell t fresh v) s l)
      (runAll (react t fresh) b (s.reactions v l)) := by
  -- `b` skips the observers with nothing to do
  induction l generalizing s b with
  | nil => exact ⟨h, rfl⟩
  | cons o l ih =>
    obtain ⟨ho, hnd⟩ := List.nodup_cons.mp hnd
    obtain ⟨hs, hn⟩ : s.raised = none ∧ s.service.raised = none := by simpa [App.crashed] using hc
    have hrest : (tell t fresh v s o).1.reactions v l = s.reactions v l :=
      List.filterMap_congr fun o' ho' => reaction_tell hs (ne_of_mem_of_not_mem ho' ho)
    rw [runAll, runAll, Sequence.runAll_cons]
    cases hx : (s.service.observers[o]?).bind (s.service.reaction v) with
    | none =>
      have hb : b.crashed = false := h.crashed.symm.trans hc
      have hgo := Sequence.andThen_of_go App.crashed (r := (b, [])) hb
        fun b => runAll (react t fresh) b (s.reactions v l)
      rw [show s.reactions v (o :: l) = s.reactions v l by simp [reactions, hx]]
      rw [show Sequence.runAll App.crashed (react t fresh) b (s.reactions v l) = _ from hgo.symm]
      refine (related_alike old _).andThen (h.tell_of_none hx) fun hc' h' => ?_
      rw [← hrest]
      exact ih hnd h' hc'
    | some x =>
      rw [show s.reactions v (o :: l) = x :: s.reactions v l by simp [reactions, hx],
        Sequence.runAll_cons]
      refine (related_alike old _).andThen (h.tell_of_some hs hn hf hx) fun hc' h' => ?_
      rw [← hrest]
      exact ih hnd h' hc'

/-- What the observers do for child `v` that can be noticed. -/
def noticed (s : App) (v : Uid) : List (Option Dict) :=
  (s.service.observers.filterMap (s.service.reaction v)).filter fun x => x.isNone || s.listens

theorem react_of_not_listens (h : s.listens = false) (d : Dict) :
    react t fresh s (some d) = (s, []) := by
  have hl : s.listening (.successProfileWith (transformUser d)) = none := by
    cases hl : s.listening (.successProfileWith (transformUser d)) with
    | none => rfl
    | some x =>
      obtain ⟨hi, hsc⟩ := listening_eq_some.mp hl
      simp [listens, show s.fireBaseListener = some x.1 from hi, hsc] at h
  simp only [react, deliver, hl]

theorem runAll_react_noticed (hc : s.crashed = false) (l : List (Option Dict)) :
    runAll (react t fresh) s l =
      runAll (react t fresh) s (l.filter fun x => x.isNone || s.listens) := by
  cases hl : s.listens with
  | true => simp
  | false =>
    induction l with
    | nil => rfl
    | cons x l ih =>
      cases x with
      | none =>
        have hstop : App.crashed (react t fresh s none).1 = true := by simp [react, App.crashed]
        simp only [List.filter_cons, Option.isNone_none, Bool.true_or, if_true, runAll,
          Sequence.runAll_cons, Sequence.andThen_of_stop App.crashed hstop]
      | some d =>
        rw [runAll, Sequence.runAll_cons, react_of_not_listens hl,
          Sequence.andThen_of_go App.crashed hc]
        simpa [runAll] using ih

theorem Alike.listens (h : Alike old (fun _ => False) a b) : a.listens = b.listens := by
  simp only [App.listens, ← h.fireBaseListener]
  cases hi : a.fireBaseListener with
  | none => rfl
  | some i => simp only [Option.any_some, h.screens i (h.listeners i (.inl hi))]

theorem reactions_range (s : App) (v : Uid) :
    s.reactions v (List.range s.service.observers.length) =
      s.service.observers.filterMap (s.service.reaction v) := by
  conv_rhs => rw [← filterMap_getElem?_range s.service.observers, List.filterMap_filterMap]
  rfl

theorem Alike.childAdded (h : Alike old (fun _ => False) a b) (hc : a.crashed = false)
    (hf : ∀ j ∈ fresh, old j = false) (hv : a.noticed v = b.noticed v) :
    Same old (fun _ => False) (a.childAdded t fresh v) (b.childAdded t fresh v) := by
  have hb : b.crashed = false := h.crashed.symm.trans hc
  have hn := List.nodup_range (n := a.service.observers.length)
  have ha := h.runAll_tell (t := t) (v := v) hn hc hf
  have hb' := (h.symm.trans h).runAll_tell (t := t) (v := v)
    (List.nodup_range (n := b.service.observers.length)) hb hf
  rw [reactions_range, runAll_react_noticed hb] at ha hb'
  simp only [noticed, h.listens] at hv
  rw [hv] at ha
  exact ⟨ha.1.trans hb'.1.symm, ha.2.trans hb'.2.symm⟩

end

end App

end Mioto
