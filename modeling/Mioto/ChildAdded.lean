import Mioto.Delivery

/-! A child-added event, observer by observer. Each observer that has not had the
child and accepts its record fills the cache and reports to the listener. -/

namespace Mioto

def Act.child : Act → Option Uid
  | .childAdded v => some v
  | _ => none

theorem filterMap_getElem?_range {α : Type} (l : List α) :
    (List.range l.length).filterMap (fun o => l[o]?) = l := by
  induction l with
  | nil => rfl
  | cons a l ih => simpa [List.range_succ_eq_map, List.filterMap_map, Function.comp_def] using ih

/-- The record that an observer reports when it is told of child `v`. -/
def Service.due (s : Service) (v : Uid) (ob : Observer) : Option Dict :=
  match s.users v with
  | .dict d => if v ∉ ob.reported ∧ ob.accepts d then some d else none
  | _ => none

theorem Service.due_eq_some {s : Service} {v : Uid} {ob : Observer} {d : Dict} :
    s.due v ob = some d ↔ s.users v = .dict d ∧ v ∉ ob.reported ∧ ob.accepts d := by
  unfold due
  cases hv : s.users v <;> simp
  constructor
  · rintro ⟨h, rfl⟩
    exact ⟨rfl, h⟩
  · rintro ⟨rfl, h⟩
    exact ⟨h, rfl⟩

theorem Service.step_childAdded_currentUser {s : Service} {o : Nat} {v : Uid} {r : Done}
    (h : s.step (.childAdded o v) = some r) : r.1.currentUser = s.currentUser := by
  obtain ⟨-, ob, -, hc⟩ := Service.step_childAdded h
  obtain ⟨-, -, rfl⟩ := Service.reportChild_eq_some hc
  cases s.users v with
  | dict d =>
    simp only [Service.childAdded]
    split <;> rfl
  | null | leaf => rfl

structure Told (s s' : Service) (o : Nat) : Prop where
  users : s'.users = s.users
  currentUser : s'.currentUser = s.currentUser
  others : ∀ o', o' ≠ o → s'.observers[o']? = s.observers[o']?

namespace App

section

variable {t : String} {fresh : List ScreenId} {v : Uid} {s : App} {o : Nat}

variable (t fresh) in
theorem tell_of_none (h : (s.service.observers[o]?).bind (s.service.due v) = none) :
    ∃ sv out, tell t fresh v s o = ({ s with service := sv }, out) ∧ deliveries out = [] ∧
      Told s.service sv o ∧ ∀ d, s.service.users v = .dict d → sv.raised = s.service.raised := by
  cases hr : s.service.step (.childAdded o v) with
  | none =>
    refine ⟨s.service, [], ?_, rfl, ⟨rfl, rfl, fun _ _ => rfl⟩, fun _ _ => rfl⟩
    simp [tell, serve, hr, settle, andThen, runAll]
  | some r =>
    obtain ⟨hn, ob, hob, hc⟩ := Service.step_childAdded hr
    obtain ⟨hrep, hnull, hc⟩ := Service.reportChild_eq_some hc
    have hdue : ∀ d, s.service.users v = .dict d → ob.accepts d = false := by
      intro d hv
      rw [hob, Option.bind_some] at h
      by_contra ha
      rw [Service.due_eq_some.mpr ⟨hv, hrep, by simpa using ha⟩] at h
      cases h
    have hann : s.service.announced (.childAdded o v) = none := by
      simp only [Service.announced, Service.reports, hob]
      cases hv : s.service.users v <;> simp [hdue _, hv]
    have hset : ∀ o' ≠ o, (s.service.observers.set o
        { ob with reported := ob.reported ++ [v] })[o']? = s.service.observers[o']? :=
      fun o' ho => List.getElem?_set_ne (Ne.symm ho)
    refine ⟨r.1, _, by rw [tell, settle_serve_of_none hann, serve_of_step hr], rfl, ?_⟩
    rw [← hc]
    cases hv : s.service.users v with
    | dict d =>
      simp only [Service.childAdded, hdue d hv]
      exact ⟨⟨rfl, rfl, hset⟩, fun _ _ => rfl⟩
    | leaf => exact ⟨⟨rfl, rfl, hset⟩, fun d hd => by cases hd⟩
    | null => exact absurd hv hnull

variable (t fresh) in
theorem tell_of_some {d : Dict} (hs : s.raised = none) (hn : s.service.raised = none)
    (h : (s.service.observers[o]?).bind (s.service.due v) = some d) :
    ∃ sv m, tell t fresh v s o =
        ((deliver t fresh { s with service := sv } (.successProfileWith (transformUser d))).1,
          .service m :: (deliver t fresh { s with service := sv }
            (.successProfileWith (transformUser d))).2) ∧
      sv.raised = none ∧ Told s.service sv o := by
  obtain ⟨ob, hob, hd⟩ := Option.bind_eq_some_iff.mp h
  obtain ⟨hv, hr, ha⟩ := Service.due_eq_some.mp hd
  let sv : Service := { s.service with
    observers := s.service.observers.set o { ob with reported := ob.reported ++ [v] }
    newUser := some (transformUser d) }
  have hstep : s.service.step (.childAdded o v) =
      some (sv, [.send (.successProfileWith (transformUser d))]) := by
    simp [Service.step, hn, hob, Service.reportChild, hr, hv, Service.childAdded, ha, Service.send,
      sv]
  have hann : s.service.announced (.childAdded o v) =
      some (.successProfileWith (transformUser d)) := by
    simp [Service.announced, Service.reports, hob, hv, ha]
  refine ⟨sv, _, settle_serve_of_some hs hstep hann fresh, hn, rfl, rfl, ?_⟩
  intro o' ho
  exact List.getElem?_set_ne (Ne.symm ho)

theorem deliver_successProfile (s : App) (p : Profile) :
    deliver t fresh s (.successProfileWith p) =
      match s.listening (.successProfileWith p) with
      | none => (s, [])
      | some (i, .friends fs) =>
        ({ s with screens := Function.update s.screens i (some (.friends ⟨fs.users ++ [p]⟩)) },
          [.delivered i (.successProfileWith p)])
      | some (i, _) =>
        ({ s with raised := some .unrecognizedSelector },
          [.delivered i (.successProfileWith p), .unrecognized i (.successProfileWith p)]) := by
  unfold deliver
  cases s.listening (.successProfileWith p) with
  | none => rfl
  | some x =>
    obtain ⟨i, sc⟩ := x
    cases sc <;> simp only [Screen.receive]
    simp only [FriendsScreen.successProfileWith, runAll, Sequence.runAll_singleton]
    cases fresh <;> rfl

/-- Only the screen that listens changes, and what is delivered is delivered to it. -/
structure ToListener (s : App) (r : Outcome) : Prop where
  listener : r.1.fireBaseListener = s.fireBaseListener
  exist : ∀ i, (r.1.screens i).isSome = (s.screens i).isSome
  deliveries : ∀ x ∈ deliveries r.2, s.fireBaseListener = some x.1 ∧ (s.screens x.1).isSome
  others : ∀ j, s.fireBaseListener ≠ some j → r.1.screens j = s.screens j
  friends : ∀ j fs, r.1.screens j = some (.friends fs) → ∃ fs', s.screens j = some (.friends fs')
  stack : r.1.stack = s.stack
  currentUser : r.1.service.currentUser = s.service.currentUser
  loads : ∀ i k, .loaded i k ∉ r.2

theorem closed_toListener : Sequence.Closed ToListener where
  refl _ := ⟨rfl, fun _ => rfl, by simp, fun _ _ => rfl, fun _ fs h => ⟨fs, h⟩, rfl, rfl, by simp⟩
  trans := by
    intro s r r' h h'
    refine ⟨h'.listener.trans h.listener, fun i => (h'.exist i).trans (h.exist i), ?_, ?_, ?_,
      h'.stack.trans h.stack, h'.currentUser.trans h.currentUser, ?_⟩
    · intro x hx
      rw [deliveries_append, List.mem_append] at hx
      rcases hx with hx | hx
      · exact h.deliveries x hx
      · rw [← h.listener, ← h.exist]
        exact h'.deliveries x hx
    · intro j hj
      rw [h'.others j (by rwa [h.listener]), h.others j hj]
    · intro j fs hj
      obtain ⟨fs', hj'⟩ := h'.friends j fs hj
      exact h.friends j fs' hj'
    · intro i k hm
      exact (List.mem_append.mp hm).elim (h.loads i k) (h'.loads i k)

theorem toListener_deliver (s : App) (p : Profile) :
    ToListener s (deliver t fresh s (.successProfileWith p)) := by
  rw [deliver_successProfile]
  split
  · exact closed_toListener.refl s
  · next i fs hl =>
    obtain ⟨hi, hsc⟩ := listening_eq_some.mp hl
    refine ⟨rfl, fun j => ?_, ?_, fun j hj => ?_, fun j fs' hj => ?_, rfl, rfl, by simp⟩
    · by_cases hj : j = i
      · subst hj
        simp [hsc]
      · simp [Function.update_of_ne hj]
    · rintro x hx
      obtain rfl := List.mem_singleton.mp hx
      exact ⟨hi, by simp [hsc]⟩
    · exact Function.update_of_ne (fun he => hj (by rw [he]; exact hi)) _ _
    · by_cases he : j = i
      · exact ⟨fs, by rw [he]; exact hsc⟩
      · exact ⟨fs', (Function.update_of_ne he _ _).symm.trans hj⟩
  · next i sc _ hl =>
    obtain ⟨hi, hsc⟩ := listening_eq_some.mp hl
    refine ⟨rfl, fun _ => rfl, ?_, fun _ _ => rfl, fun _ fs h => ⟨fs, h⟩, rfl, rfl, by simp⟩
    rintro x hx
    obtain rfl := List.mem_singleton.mp hx
    exact ⟨hi, by simp [hsc]⟩

theorem toListener_tell (s : App) (o : Nat) : ToListener s (tell t fresh v s o) := by
  have hserve : ToListener s (s.serve (.childAdded o v)) := by
    cases hr : s.service.step (.childAdded o v) with
    | none => simpa only [serve, hr] using closed_toListener.refl s
    | some r =>
      rw [serve_of_step hr]
      exact ⟨rfl, fun _ => rfl, by simp, fun _ _ => rfl, fun _ fs h => ⟨fs, h⟩, rfl,
        Service.step_childAdded_currentUser hr, by simp⟩
  refine closed_toListener.andThen (f := fun s' => runAll (deliver t fresh) s'
    ((s.serve (.childAdded o v)).2.flatMap Output.messages)) hserve ?_
  refine closed_toListener.runAll (fun s' m hm => ?_) _
  cases hr : s.service.step (.childAdded o v) with
  | none => simp [serve, hr] at hm
  | some r =>
    rw [serve_of_step hr, messages_of_step hr, Option.mem_toList] at hm
    obtain ⟨d, -, rfl⟩ := Option.map_eq_some_iff.mp hm
    exact toListener_deliver s' _

theorem toListener_childAdded (s : App) : ToListener s (s.childAdded t fresh v) :=
  closed_toListener.runAll (fun s o _ => toListener_tell s o) s

theorem childAdded_receiver {s : App} {x : ScreenId × Message}
    (h : x ∈ deliveries (s.childAdded t fresh v).2) :
    s.fireBaseListener = some x.1 ∧ (s.screens x.1).isSome :=
  (toListener_childAdded s).deliveries x h

theorem mem_deliveries_andThen {r : Outcome} {f : App → Outcome} {x : ScreenId × Message}
    (h : x ∈ deliveries r.2) : x ∈ deliveries (Sequence.andThen crashed r f).2 := by
  unfold Sequence.andThen
  split
  · exact h
  · simp [h]

theorem due_of_told {s s' : Service} {o : Nat} (h : Told s s' o) : s'.due v = s.due v := by
  funext ob
  unfold Service.due
  rw [h.users]

theorem runAll_tell_delivers {l : List Nat} (hnd : l.Nodup) {s : App} (hs : s.raised = none)
    (hn : s.service.raised = none) {i : ScreenId} (hl : s.fireBaseListener = some i)
    (hi : (s.screens i).isSome) {o : Nat} (ho : o ∈ l) {d : Dict}
    (hd : (s.service.observers[o]?).bind (s.service.due v) = some d) :
    (i, .successProfileWith (transformUser d)) ∈
      deliveries (runAll (tell t fresh v) s l).2 := by
  -- observers before the first that has something to report leave the listener as it is
  induction l generalizing s with
  | nil => cases ho
  | cons o₁ l ih =>
    obtain ⟨ho₁, hnd⟩ := List.nodup_cons.mp hnd
    rw [runAll, Sequence.runAll_cons]
    have hu : s.service.users v = .dict d := by
      obtain ⟨ob, -, hd⟩ := Option.bind_eq_some_iff.mp hd
      exact (Service.due_eq_some.mp hd).1
    cases hd₁ : (s.service.observers[o₁]?).bind (s.service.due v) with
    | some d₁ =>
      obtain ⟨ob, -, hdue⟩ := Option.bind_eq_some_iff.mp hd₁
      obtain rfl : d = d₁ := Node.dict.inj (hu.symm.trans (Service.due_eq_some.mp hdue).1)
      obtain ⟨sv, m, he, -, -⟩ := tell_of_some t fresh hs hn hd₁
      have hfirst : (i, .successProfileWith (transformUser d)) ∈
          deliveries (tell t fresh v s o₁).2 := by
        obtain ⟨sc, hsc⟩ := Option.isSome_iff_exists.mp hi
        have hlist : listening { s with service := sv } (.successProfileWith (transformUser d)) =
            some (i, sc) := listening_eq_some.mpr ⟨hl, hsc⟩
        rw [he, deliveries_service, deliveries_deliver, receiver, hlist]
        exact List.mem_singleton.mpr rfl
      exact mem_deliveries_andThen hfirst
    | none =>
      have hne : o ≠ o₁ := by
        rintro rfl
        rw [hd] at hd₁
        cases hd₁
      obtain ⟨sv, out, he, hout, htold, hraised⟩ := tell_of_none t fresh hd₁
      have hsv : sv.raised = none := (hraised d hu).trans hn
      rw [he, Sequence.andThen_of_go crashed (by simp [crashed, hs, hsv])]
      simp only [deliveries_append, hout, List.nil_append]
      refine ih hnd (s := { s with service := sv }) hs hsv hl hi
        ((List.mem_cons.mp ho).resolve_left hne) ?_
      rw [show ({ s with service := sv } : App).service = sv from rfl, htold.others o hne,
        due_of_told htold]
      exact hd

theorem runAll_tell_silent {l : List Nat} (hnd : l.Nodup) {s : App}
    (hd : ∀ o ∈ l, (s.service.observers[o]?).bind (s.service.due v) = none) :
    deliveries (runAll (tell t fresh v) s l).2 = [] := by
  induction l generalizing s with
  | nil => rfl
  | cons o₁ l ih =>
    obtain ⟨ho₁, hnd⟩ := List.nodup_cons.mp hnd
    obtain ⟨sv, out, he, hout, htold, -⟩ :=
      tell_of_none t fresh (hd o₁ List.mem_cons_self)
    rw [runAll, Sequence.runAll_cons, he]
    unfold Sequence.andThen
    split
    · exact hout
    · simp only [deliveries_append, hout, List.nil_append]
      refine ih hnd fun o ho => ?_
      rw [show ({ s with service := sv } : App).service = sv from rfl,
        htold.others o (ne_of_mem_of_not_mem ho ho₁), due_of_told htold]
      exact hd o (List.mem_cons_of_mem _ ho)

variable (t fresh) in
theorem childAdded_silent {s : App} (h : ∀ ob ∈ s.service.observers, s.service.due v ob = none) :
    deliveries (s.childAdded t fresh v).2 = [] := by
  refine runAll_tell_silent List.nodup_range fun o _ => ?_
  cases hob : s.service.observers[o]? with
  | none => rfl
  | some ob => exact h ob (List.mem_of_getElem? hob)

variable (t fresh) in
theorem childAdded_delivers {s : App} (hs : s.raised = none) (hn : s.service.raised = none)
    {ob : Observer} (hob : ob ∈ s.service.observers) {d : Dict} (hd : s.service.due v ob = some d)
    {i : ScreenId} (hl : s.fireBaseListener = some i) (hi : (s.screens i).isSome) :
    (i, .successProfileWith (transformUser d)) ∈ deliveries (s.childAdded t fresh v).2 := by
  obtain ⟨o, ho, he⟩ := List.getElem_of_mem hob
  refine runAll_tell_delivers List.nodup_range hs hn hl hi (List.mem_range.mpr ho) (o := o) ?_
  rw [List.getElem?_eq_getElem ho, he, Option.bind_some, hd]

end

end App

end Mioto
