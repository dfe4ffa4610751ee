import Mioto.ChildAdded

/-! What the friends list shows. Each visit registers one more observer that is never
removed, and all of them report to the list that listens. -/

namespace Mioto

namespace Service

def untold (s : Service) (v : Uid) : Option Dict :=
  match s.users v with
  | .dict d => if ∃ ob ∈ s.observers, v ∉ ob.reported then some d else none
  | _ => none

def reporters (s : Service) (v : Uid) : Nat := s.observers.countP fun ob => (s.due v ob).isSome

theorem reporters_eq_length (s : Service) (v : Uid) :
    s.reporters v = (s.observers.filterMap (s.due v)).length :=
  List.length_filterMap_eq_countP.symm

theorem users_of_untold {s : Service} {v : Uid} {d : Dict} (h : s.untold v = some d) :
    s.users v = .dict d := by
  unfold untold at h
  split at h
  · next d' hv =>
    split_ifs at h
    rw [hv, Option.some.inj h]
  · cases h

end Service

def Output.loads (j : ScreenId) : Output → Bool
  | .loaded i _ => i == j
  | _ => false

/-- The user record that an act makes Firebase call observers for. -/
def App.called (s : App) (a : Act) : Option (Uid × Dict) :=
  a.child.bind fun v => (s.service.untold v).map fun d => (v, d)

/-- The user records reported since screen `j` was loaded, in the order of first report. -/
def reportedSince (j : ScreenId) : AppHistory → List (Uid × Dict)
  | [] => []
  | m :: older =>
    if m.out.any (Output.loads j) then []
    else
      match m.before.called m.event.act with
      | none => reportedSince j older
      | some x =>
        if x.1 ∈ (reportedSince j older).map Prod.fst then reportedSince j older
        else reportedSince j older ++ [x]

def others (currentUser : Option Uid) (l : List (Uid × Dict)) : List (Uid × Dict) :=
  l.filter fun x => currentUser != some x.1

namespace App

/-- If screen `j` is a friends list, it has one entry for each user record reported
since it was loaded that is not the signed-in user's own, in the order of first report. -/
def ShowsReported (h : AppHistory) (s : App) (j : ScreenId) : Prop :=
  ∀ fs, s.screens j = some (.friends fs) →
    fs.users = (others s.service.currentUser (reportedSince j h)).map fun x => transformUser x.2

/-- No account is signed in or out while a friends list is open. -/
def AccountChangesBetweenVisits (h : AppHistory) : Prop :=
  ∀ m ∈ h, ∀ j ∈ m.before.stack, ∀ fs, m.before.screens j = some (.friends fs) →
    m.after.service.currentUser = m.before.service.currentUser

/-- The friends list `j` is yet to show the record of `v`, which is about to be reported. -/
def Awaits (older : AppHistory) (s : App) (j : ScreenId) (v : Uid) : Prop :=
  (s.service.untold v).isSome ∧ v ∉ (reportedSince j older).map Prod.fst ∧
    s.service.currentUser ≠ some v

instance (older : AppHistory) (s : App) (j : ScreenId) (v : Uid) :
    Decidable (Awaits older s j v) := inferInstanceAs (Decidable (_ ∧ _ ∧ _))

/-- A list that awaits `v` listens and exactly one observer reports `v` to it; no
observer reports it to a list that does not await it. -/
structure ReportedOnce (older : AppHistory) (s : App) (j : ScreenId) (v : Uid) : Prop where
  awaited : Awaits older s j v → s.fireBaseListener = some j ∧ s.service.reporters v = 1
  otherwise : ¬ Awaits older s j v → s.fireBaseListener = some j → s.service.reporters v = 0

def ReportsReachListsOnce (h : AppHistory) : Prop :=
  ∀ newer m older v j fs, h = newer ++ m :: older → m.event.act = .childAdded v →
    j ∈ m.before.stack → m.before.screens j = some (.friends fs) →
    ReportedOnce older m.before j v

/-! ### Events without children -/

structure KeepsFriends (s : App) (r : Outcome) : Prop where
  stack : ∀ j ∈ r.1.stack, r.2.any (Output.loads j) = false → j ∈ s.stack
  loaded : ∀ j fs, r.1.screens j = some (.friends fs) → r.2.any (Output.loads j) = true →
    fs.users = []
  kept : ∀ j fs, r.1.screens j = some (.friends fs) → r.2.any (Output.loads j) = false →
    s.screens j = some (.friends fs)

theorem closed_keepsFriends : Sequence.Closed KeepsFriends where
  refl _ := ⟨fun _ hj _ => hj, by simp, fun _ _ hj _ => hj⟩
  trans := by
    intro s r r' h h'
    refine ⟨fun j hj hl => ?_, fun j fs hj hl => ?_, fun j fs hj hl => ?_⟩
    · rw [List.any_append, Bool.or_eq_false_iff] at hl
      exact h.stack j (h'.stack j hj hl.2) hl.1
    · cases hl' : r'.2.any (Output.loads j) with
      | true => exact h'.loaded j fs hj hl'
      | false =>
        rw [List.any_append, hl', Bool.or_false] at hl
        exact h.loaded j fs (h'.kept j fs hj hl') hl
    · rw [List.any_append, Bool.or_eq_false_iff] at hl
      exact h.kept j fs (h'.kept j fs hj hl.2) hl.1

theorem keepsFriends_of_eq {s : App} {r : Outcome} (hst : ∀ j ∈ r.1.stack, j ∈ s.stack)
    (hsc : ∀ j fs, r.1.screens j = some (.friends fs) → s.screens j = some (.friends fs))
    (ho : ∀ j, r.2.any (Output.loads j) = false) : KeepsFriends s r :=
  ⟨fun j hj _ => hst j hj, fun j fs _ hl => by simp [ho j] at hl, fun j fs hj _ => hsc j fs hj⟩

theorem keepsFriends_appear (s : App) {stack : List ScreenId} {j : ScreenId} (k : Kind)
    (presented : Option ScreenId) (hst : ∀ i ∈ stack, i ∈ s.stack ∨ i = j) :
    KeepsFriends s ({ s with stack := stack, presented := presented }.appear k j) := by
  refine ⟨fun i hi hl => ?_, fun i fs hi hl => ?_, fun i fs hi hl => ?_⟩
  · refine (hst i hi).resolve_right fun he => ?_
    simp [appear, Output.loads, he] at hl
  · have he : j = i := by simpa [appear, Output.loads] using hl
    subst he
    simp only [appear, Function.update_self, Option.some.injEq] at hi
    cases k <;> simp only [Kind.loaded, reduceCtorEq, Screen.friends.injEq] at hi
    rw [← hi]
    rfl
  · have he : j ≠ i := by simpa [appear, Output.loads] using hl
    simpa only [appear, Function.update_of_ne (Ne.symm he)] using hi

theorem keepsFriends_serve (s : App) (e : ServiceEvent) : KeepsFriends s (s.serve e) := by
  unfold serve
  split <;> exact keepsFriends_of_eq (fun _ h => h) (fun _ _ h => h) fun _ => rfl

theorem keepsFriends_become (s : App) (i : ScreenId) {sc : Screen}
    (h : (Command.become sc).listsFriends = false) :
    KeepsFriends s ({ s with screens := Function.update s.screens i (some sc) }, []) := by
  refine keepsFriends_of_eq (fun _ h => h) (fun j fs hj => ?_) fun _ => rfl
  by_cases he : j = i
  · subst he
    obtain rfl : sc = .friends fs := by simpa using hj
    cases h
  · simpa only [Function.update_of_ne he] using hj

theorem primitive_keepsFriends (t : String) :
    Primitive KeepsFriends t (fun _ => True) (fun c => c.listsFriends = false) where
  closed := closed_keepsFriends
  viewDidLoad k didLogin := by cases k <;> cases didLogin <;> decide
  change := by
    intro s r hc
    cases hc with
    | become _ ha => exact keepsFriends_become s _ ha
    | call => exact keepsFriends_serve s _
    | push k => exact keepsFriends_appear s k s.presented fun i hi => by simpa [or_comm] using hi
    | present => exact keepsFriends_appear s .forgotPassword _ fun i hi => .inl hi
    | pop hs =>
      refine keepsFriends_of_eq (fun k hk => ?_) (fun _ _ h => h) fun _ => rfl
      rw [hs]
      exact List.mem_cons_of_mem _ hk
    | _ => exact keepsFriends_of_eq (fun _ h => h) (fun _ _ h => h) fun _ => rfl

theorem receive_listsFriends {sc : Screen} {user : Option Profile} {m : Message}
    {cs : List Command} (h : sc.receive user m = some cs) (hm : ∀ p, m ≠ .successProfileWith p) :
    ∀ c ∈ cs, c.listsFriends = false := by
  have hi : sc.kind.implements m := by
    rw [← sc.receive_isSome user m, h]
    rfl
  intro c hc
  cases Screen.answers_of_receive h c hc with
  | @shows sc' hk =>
    cases sc' with
    | friends fs =>
      rw [← hk] at hi
      cases m with
      | successProfileWith p => exact absurd rfl (hm p)
      | _ => cases hi
    | _ => rfl
  | _ => rfl

theorem keepsFriends_deliver {t : String} {fresh : List ScreenId} (s : App) {m : Message}
    (hm : ∀ p, m ≠ .successProfileWith p) : KeepsFriends s (deliver t fresh s m) := by
  unfold deliver
  split
  · exact closed_keepsFriends.refl s
  · next i sc _ =>
    split
    · exact keepsFriends_of_eq (fun _ h => h) (fun _ _ h => h) fun _ => rfl
    · next cs hc =>
      exact closed_keepsFriends.trans
        (r := (s, [.delivered i m]))
        (keepsFriends_of_eq (fun _ h => h) (fun _ _ h => h) fun _ => rfl)
        ((primitive_keepsFriends t).performAny fresh i s (receive_listsFriends hc hm))

theorem keepsFriends_settle_serve {t : String} {fresh : List ScreenId} (s : App) {e : ServiceEvent}
    (he : ∀ p, s.service.announced e ≠ some (.successProfileWith p)) :
    KeepsFriends s (settle t fresh (s.serve e)) := by
  refine closed_keepsFriends.andThen (f := fun s' => runAll (deliver t fresh) s'
    ((s.serve e).2.flatMap Output.messages)) (keepsFriends_serve s e) ?_
  refine closed_keepsFriends.runAll (fun s' m hm => ?_) _
  cases hr : s.service.step e with
  | none => simp [serve, hr] at hm
  | some r =>
    rw [serve_of_step hr, messages_of_step hr, Option.mem_toList] at hm
    exact keepsFriends_deliver s' fun p hp => he p (by rw [← hp]; exact hm)

theorem announced_report_not_profile {s : Service} {a : Act} {t : String} {se : ServiceEvent}
    (h : a.report t = some se) (p : Profile) : s.announced se ≠ some (.successProfileWith p) := by
  intro hm
  rcases Act.report_eq_some h with ⟨k, -, rfl⟩ | ⟨k, q, -, rfl⟩
  · obtain ⟨w, -, hm⟩ := Option.bind_eq_some_iff.mp hm
    unfold Reply.announced at hm
    split at hm <;> (try split_ifs at hm) <;> cases hm
  · cases Service.announced_dialog hm

theorem keepsFriends_step {s s' : App} {e : Event} {o : List Output}
    (h : s.step e = some (s', o)) (hv : ∀ v, e.act ≠ .childAdded v) :
    KeepsFriends s (s', o) := by
  obtain ⟨-, hs, -, hd⟩ := step_taken h
  have hp := primitive_keepsFriends e.stringTime
  suffices hk : KeepsFriends (s.reserve e) (s', o) from ⟨hk.stack, hk.loaded, hk.kept⟩
  generalize (s', o) = r at hd
  cases hd with
  | launch =>
    exact closed_keepsFriends.andThen
      (keepsFriends_appear (s.reserve e) .menu s.presented fun i hi => .inr (by simpa using hi))
      (hp.performAny _ _ _ (hp.viewDidLoad .menu _))
  | @touch i touch sc cs ha hi hsc hcs =>
    rcases settle_touched (s := s.reserve e) hs hcs e.stringTime [e.fresh, e.fresh'] i with
      ⟨keychain, -, -, he⟩ | ⟨hl, -, he⟩
    · rw [he]
      exact keepsFriends_settle_serve _ (by simp [Service.announced])
    · rw [he]
      exact hp.performAny _ _ _ fun c hc => (touched_calls hcs hl c hc).2.2
  | pop ha hs =>
    refine keepsFriends_of_eq (fun k hk => ?_) (fun _ _ h => h) fun _ => rfl
    exact hs ▸ List.mem_cons_of_mem _ hk
  | @release i ha hi =>
    refine keepsFriends_of_eq (fun _ h => h) (fun j fs hj => ?_) fun _ => rfl
    by_cases he : j = i
    · simp [he] at hj
    · exact (Function.update_of_ne he _ _).symm.trans hj
  | @timer i sc ha hsc =>
    exact closed_keepsFriends.trans
      (r := ({ s.reserve e with timers := s.timers.erase i }, []))
      (keepsFriends_of_eq (fun _ h => h) (fun _ _ h => h) fun _ => rfl)
      (hp.performAny _ _ _ fun c hc => (deferred_calls _ c hc).2.2)
  | silent => exact keepsFriends_serve _ _
  | report ha => exact keepsFriends_settle_serve _ (announced_report_not_profile ha)
  | childAdded ha => exact absurd ha (hv _)

/-! ### Child-added events -/

section

variable {t : String} {fresh : List ScreenId} {v : Uid}

theorem runAll_tell_users {l : List Nat} (hnd : l.Nodup) {s : App} (hs : s.raised = none)
    (hn : s.service.raised = none) {j : ScreenId} (hl : s.fireBaseListener = some j)
    {users : List Profile} (hj : s.screens j = some (.friends ⟨users⟩)) :
    (runAll (tell t fresh v) s l).1.screens j = some (.friends ⟨users ++
      (l.filterMap fun o => (s.service.observers[o]?).bind (s.service.due v)).map
        transformUser⟩) := by
  -- each observer that has something to report adds one entry to the list that listens
  induction l generalizing s users with
  | nil => simpa [runAll] using hj
  | cons o₁ l ih =>
    obtain ⟨ho₁, hnd⟩ := List.nodup_cons.mp hnd
    have hrest : ∀ sv, Told s.service sv o₁ →
        (l.filterMap fun o => (sv.observers[o]?).bind (sv.due v)) =
          l.filterMap fun o => (s.service.observers[o]?).bind (s.service.due v) := by
      intro sv htold
      refine List.filterMap_congr fun o ho => ?_
      rw [htold.others o (ne_of_mem_of_not_mem ho ho₁), due_of_told htold]
    rw [runAll, Sequence.runAll_cons]
    cases hd₁ : (s.service.observers[o₁]?).bind (s.service.due v) with
    | some d =>
      obtain ⟨sv, m, he, hsv, htold⟩ := tell_of_some t fresh hs hn hd₁
      have hlist : listening { s with service := sv } (.successProfileWith (transformUser d)) =
          some (j, .friends ⟨users⟩) := listening_eq_some.mpr ⟨hl, hj⟩
      rw [deliver_successProfile, hlist] at he
      rw [he, Sequence.andThen_of_go crashed (by simp [crashed, hs, hsv])]
      let listed := Screen.friends ⟨users ++ [transformUser d]⟩
      have hh := ih hnd
        (s := { s with service := sv, screens := Function.update s.screens j (some listed) })
        hs hsv hl (Function.update_self ..)
      rw [show users ++ [transformUser d] ++ _ = _ from List.append_assoc .., hrest sv htold] at hh
      rw [List.filterMap_cons, hd₁]
      exact hh
    | none =>
      obtain ⟨sv, out, he, -, htold, hraised⟩ := tell_of_none t fresh hd₁
      rw [he, List.filterMap_cons, hd₁]
      unfold Sequence.andThen
      split
      · next hc =>
        -- The record is a leaf, which no observer reports.
        have hnone : ∀ d, s.service.users v ≠ .dict d := by
          intro d hd
          simp [crashed, hs, hraised d hd, hn] at hc
        have hdue : ∀ o : Nat, (s.service.observers[o]?).bind (s.service.due v) = none := by
          intro o
          refine Option.eq_none_iff_forall_ne_some.mpr fun d hd => ?_
          obtain ⟨ob, -, hd⟩ := Option.bind_eq_some_iff.mp hd
          exact hnone d (Service.due_eq_some.mp hd).1
        simpa [hdue] using hj
      · next hc =>
        have hsv : sv.raised = none := by
          simp only [crashed, hs, Option.isSome_none, Bool.false_or, Bool.not_eq_true] at hc
          simpa using hc
        simp only [← hrest sv htold]
        exact ih hnd (s := { s with service := sv }) hs hsv hl hj

end

def heard (s : App) (j : ScreenId) (v : Uid) : List Dict :=
  if s.fireBaseListener = some j then s.service.observers.filterMap (s.service.due v) else []

theorem length_heard (s : App) (j : ScreenId) (v : Uid) :
    (s.heard j v).length = if s.fireBaseListener = some j then s.service.reporters v else 0 := by
  unfold heard
  split
  · exact (Service.reporters_eq_length s.service v).symm
  · rfl

theorem users_of_heard {s : App} {j : ScreenId} {v : Uid} {d : Dict} (h : d ∈ s.heard j v) :
    s.service.users v = .dict d := by
  unfold heard at h
  split at h
  · obtain ⟨ob, -, hob⟩ := List.mem_filterMap.mp h
    exact (Service.due_eq_some.mp hob).1
  · cases h

theorem childAdded_users {t : String} {fresh : List ScreenId} {v : Uid} {s : App}
    (hs : s.raised = none) (hn : s.service.raised = none) {j : ScreenId} {fs : FriendsScreen}
    (hj : s.screens j = some (.friends fs)) :
    (s.childAdded t fresh v).1.screens j =
      some (.friends ⟨fs.users ++ (s.heard j v).map transformUser⟩) := by
  unfold heard
  split
  · next hl =>
    have hall : (List.range s.service.observers.length).filterMap
        (fun o : Nat => (s.service.observers[o]?).bind (s.service.due v)) =
        s.service.observers.filterMap (s.service.due v) := by
      conv_rhs => rw [← filterMap_getElem?_range s.service.observers, List.filterMap_filterMap]
    rw [← hall]
    exact runAll_tell_users List.nodup_range hs hn hl hj
  · next hl =>
    rw [(toListener_childAdded s).others j hl, hj, List.map_nil, List.append_nil]

theorem reportedOnce_iff {older : AppHistory} {s : App} {j : ScreenId} {v : Uid} :
    ReportedOnce older s j v ↔
      (∀ d, s.service.untold v = some d → Awaits older s j v → s.heard j v = [d]) ∧
        (¬ Awaits older s j v → s.heard j v = []) := by
  have hlen := length_heard s j v
  constructor
  · intro h
    refine ⟨fun d hd hw => ?_, fun hw => ?_⟩
    · obtain ⟨hl, hr⟩ := h.awaited hw
      rw [if_pos hl, hr] at hlen
      obtain ⟨d', hd'⟩ := List.length_eq_one_iff.mp hlen
      have hv := users_of_heard (s := s) (j := j) (v := v) (d := d') (by simp [hd'])
      rw [hd', Node.dict.inj (hv.symm.trans (Service.users_of_untold hd))]
    · refine List.length_eq_zero_iff.mp (hlen.trans ?_)
      split
      · next hl => exact h.otherwise hw hl
      · rfl
  · rintro ⟨hyes, hno⟩
    refine ⟨fun hw => ?_, fun hw hl => ?_⟩
    · obtain ⟨d, hd⟩ := Option.isSome_iff_exists.mp hw.1
      rw [hyes d hd hw] at hlen
      split at hlen
      · next hl => exact ⟨hl, hlen.symm⟩
      · cases hlen
    · rw [hno hw, if_pos hl] at hlen
      exact hlen.symm

theorem reportedSince_childAdded {m : AppMove} {older : AppHistory} {v : Uid} {j : ScreenId}
    (ha : m.event.act = .childAdded v) (hl : m.out.any (Output.loads j) = false) {d : Dict}
    (hd : m.before.service.untold v = some d) :
    reportedSince j (m :: older) =
      if v ∈ (reportedSince j older).map Prod.fst then reportedSince j older
      else reportedSince j older ++ [(v, d)] := by
  simp only [reportedSince, hl, ha, called, Act.child, Option.bind_some, hd, Option.map_some,
    Bool.false_eq_true, if_false]

theorem others_reportedSince_childAdded {m : AppMove} {older : AppHistory} {v : Uid} {j : ScreenId}
    (ha : m.event.act = .childAdded v) (hl : m.out.any (Output.loads j) = false) {d : Dict}
    (hd : m.before.service.untold v = some d) (hw : Awaits older m.before j v) :
    others m.before.service.currentUser (reportedSince j (m :: older)) =
      others m.before.service.currentUser (reportedSince j older) ++ [(v, d)] := by
  simp only [reportedSince_childAdded ha hl hd, if_neg hw.2.1, others, List.filter_append]
  congr 1
  simpa using hw.2.2

theorem others_reportedSince_of_not_awaits {m : AppMove} {older : AppHistory} {v : Uid}
    {j : ScreenId} (ha : m.event.act = .childAdded v) (hl : m.out.any (Output.loads j) = false)
    (hw : ¬ Awaits older m.before j v) :
    others m.before.service.currentUser (reportedSince j (m :: older)) =
      others m.before.service.currentUser (reportedSince j older) := by
  cases hd : m.before.service.untold v with
  | none => simp [reportedSince, hl, ha, called, Act.child, hd]
  | some d =>
    by_cases hv : v ∈ (reportedSince j older).map Prod.fst
    · rw [reportedSince_childAdded ha hl hd, if_pos hv]
    · have hu : m.before.service.currentUser = some v := by
        by_contra hu
        exact hw ⟨by simp [hd], hv, hu⟩
      simp [reportedSince_childAdded ha hl hd, if_neg hv, others, List.filter_append, hu]

theorem toListener_move {m : AppMove} (hm : machine.Fires m) {v : Uid}
    (ha : m.event.act = .childAdded v) :
    ToListener (m.before.reserve m.event) (m.after, m.out) := by
  rw [(fires_taken hm).childAdded ha]
  exact toListener_childAdded _

theorem showsReported_childAdded_iff {older : AppHistory} {m : AppMove} (hm : machine.Fires m)
    {v : Uid} (ha : m.event.act = .childAdded v) {j : ScreenId} {fs : FriendsScreen}
    (hj : m.before.screens j = some (.friends fs)) (hsh : ShowsReported older m.before j) :
    ShowsReported (m :: older) m.after j ↔ ReportedOnce older m.before j v := by
  obtain ⟨hs, hn, -, -⟩ := fires_taken hm
  have hr := (fires_taken hm).childAdded ha
  have ht := toListener_move hm ha
  have hu : m.after.service.currentUser = m.before.service.currentUser := ht.currentUser
  have hl : m.out.any (Output.loads j) = false := by
    refine List.any_eq_false.mpr fun o ho hlo => ?_
    cases o <;> simp only [Output.loads, Bool.false_eq_true] at hlo
    exact ht.loads _ _ ho
  have hgot : m.after.screens j =
      some (.friends ⟨fs.users ++ (m.before.heard j v).map transformUser⟩) := by
    rw [show m.after = _ from congrArg Prod.fst hr]
    exact childAdded_users (s := m.before.reserve m.event) hs hn hj
  have hiff : ShowsReported (m :: older) m.after j ↔
      fs.users ++ (m.before.heard j v).map transformUser =
        (others m.before.service.currentUser (reportedSince j (m :: older))).map
          fun x => transformUser x.2 := by
    simp only [ShowsReported, hgot, hu, Option.some.injEq, Screen.friends.injEq, forall_eq']
  rw [hiff, hsh fs hj, reportedOnce_iff]
  by_cases hw : Awaits older m.before j v
  · obtain ⟨d, hd⟩ := Option.isSome_iff_exists.mp hw.1
    have hinj : Function.Injective (List.map transformUser) :=
      List.map_injective_iff.mpr (Function.LeftInverse.injective property_transformUser)
    rw [others_reportedSince_childAdded ha hl hd hw, List.map_append, List.append_cancel_left_eq,
      show [(v, d)].map (fun x => transformUser x.2) = [d].map transformUser from rfl, hinj.eq_iff]
    constructor
    · intro hh
      refine ⟨fun d' hd' _ => ?_, fun hn => absurd hw hn⟩
      rw [hh, Option.some.inj (hd.symm.trans hd')]
    · exact fun hh => hh.1 d hd hw
  · rw [others_reportedSince_of_not_awaits ha hl hw, List.append_right_eq_self, List.map_eq_nil_iff]
    exact ⟨fun hh => ⟨fun _ _ hy => absurd hy hw, fun _ => hh⟩, fun hh => hh.2 hw⟩

theorem showsReported_other {older : AppHistory} {m : AppMove} (hm : machine.Fires m)
    (hv : ∀ v, m.event.act ≠ .childAdded v)
    (hb : ∀ j ∈ m.before.stack, ∀ fs, m.before.screens j = some (.friends fs) →
      m.after.service.currentUser = m.before.service.currentUser)
    (hsh : ∀ j ∈ m.before.stack, ShowsReported older m.before j) :
    ∀ j ∈ m.after.stack, ShowsReported (m :: older) m.after j := by
  intro j hj fs hfs
  have hk := keepsFriends_step hm hv
  cases hl : m.out.any (Output.loads j) with
  | true =>
    rw [hk.loaded j fs hfs hl]
    simp [reportedSince, hl, others]
  | false =>
    have hst := hk.stack j hj hl
    have hfs' := hk.kept j fs hfs hl
    rw [hsh j hst fs hfs', hb j hst fs hfs']
    have hc : m.before.called m.event.act = none := by
      cases ha : m.event.act <;> first | exact absurd ha (hv _) | simp [called, Act.child]
    simp [reportedSince, hl, hc]

/-- In every run from a launch, all open friends lists show in every state reached what
they should exactly when each child-added event is reported once to those that await it. -/
theorem friends_lists_show_reported_iff {s₀ s : App} {h : AppHistory} (hl : Launch s₀)
    (hr : machine.Run s₀ h s) (hb : AccountChangesBetweenVisits h) :
    (∀ older s', older <:+ h → machine.Run s₀ older s' → ∀ j ∈ s'.stack, ShowsReported older s' j) ↔
      ReportsReachListsOnce h := by
  constructor
  · rintro hsh newer m older v j fs rfl ha hj hfs
    have hm := hr.fires m (by simp)
    have hbefore := hr.before rfl
    have hsh₀ := hsh older _ ⟨newer ++ [m], by simp⟩ hbefore j hj
    refine (showsReported_childAdded_iff hm ha hfs hsh₀).mp ?_
    refine hsh (m :: older) _ ⟨newer, rfl⟩ (hbefore.cons hm) j ?_
    rw [(toListener_move hm ha).stack]
    exact hj
  · intro hc older s' hsuf hr'
    obtain ⟨newer, rfl⟩ := hsuf
    induction hr' generalizing newer with
    | nil =>
      intro j hj
      rw [hl.stack] at hj
      cases hj
    | @cons older m hr' hm ih =>
      have ih := ih (newer ++ [m]) (by simpa using hr) (by simpa using hb) (by simpa using hc)
      by_cases hv : ∃ v, m.event.act = .childAdded v
      · obtain ⟨v, ha⟩ := hv
        have ht := toListener_move hm ha
        intro j hj fs hfs
        have hj : j ∈ m.before.stack := by
          rw [ht.stack] at hj
          exact hj
        obtain ⟨fs', hfs'⟩ := ht.friends j fs hfs
        have hone := hc newer m older v j fs' rfl ha hj hfs'
        exact (showsReported_childAdded_iff hm ha hfs' (ih j hj)).mpr hone fs hfs
      · rw [not_exists] at hv
        exact showsReported_other hm hv (hb m (by simp)) ih

def visit : List Act := [.launch, .touch 1 .toggleSearch, .childAdded "u", .childAdded "v"]

theorem first_visit_shows_reported :
    let r := (machine.exec [] (start (Service.launch (some "u") ["u", "v"]))
      (script 0 visit)).get (by decide)
    ∀ older s', older <:+ r.1 →
      machine.Run (start (Service.launch (some "u") ["u", "v"])) older s' →
      ∀ j ∈ s'.stack, ShowsReported older s' j := by
  intro r
  have hacc : ∀ m ∈ r.1, m.after.service.currentUser = m.before.service.currentUser := by decide
  refine (friends_lists_show_reported_iff (start_launch _ _) (Machine.exec_run _)
    fun m hm _ _ _ _ => hacc m hm).mpr ?_
  generalize hh : r.1 = h
  have hlist : ∀ m ∈ h, ∀ j ∈ m.before.stack,
      j = 2 ∨ (m.before.screens j).map Screen.kind ≠ some .friends := by
    rw [← hh]
    decide
  have hv : ∀ m ∈ h.head?, m.event.act.child = some "v" ∧ m.before.fireBaseListener = some 2 ∧
      m.before.service.reporters "v" = 1 ∧ Awaits h.tail m.before 2 "v" := by
    rw [← hh]
    decide
  have hu : ∀ m ∈ h.tail.head?, m.event.act.child = some "u" ∧
      m.before.service.reporters "u" = 0 ∧ ¬ Awaits h.tail.tail m.before 2 "u" := by
    rw [← hh]
    decide
  have hrest : ∀ m ∈ h.tail.tail, m.event.act.child = none := by
    rw [← hh]
    decide
  intro newer m older v j fs he ha hj hfs
  obtain rfl : j = 2 := (hlist m (by simp [he]) j hj).resolve_right (by simp [hfs, Screen.kind])
  rcases newer with _ | ⟨m₁, _ | ⟨m₂, newer⟩⟩ <;> subst he
  · obtain ⟨hc, hl, hr, hw⟩ := hv m rfl
    obtain rfl : v = "v" := by simpa [ha, Act.child] using hc
    exact ⟨fun _ => ⟨hl, hr⟩, fun hn => absurd hw hn⟩
  · obtain ⟨hc, hr, hw⟩ := hu m rfl
    obtain rfl : v = "u" := by simpa [ha, Act.child] using hc
    exact ⟨fun hy => absurd hy hw, fun _ _ => hr⟩
  · have hc := hrest m (by simp)
    simp [ha, Act.child] at hc

def visitAgain : List Act :=
  [.launch, .touch 1 .toggleSearch, .childAdded "v", .pop, .touch 1 .toggleSearch,
    .childAdded "v", .remoteRecord "w" (Service.signupRecord "w"), .childAdded "w"]

theorem later_user_listed_twice : ¬ ∀ s₀ h s, Launch s₀ → machine.Run s₀ h s →
    AccountChangesBetweenVisits h → ∀ j, s.stack.head? = some j → ShowsReported h s j := by
  intro hall
  let r := (machine.exec [] (start (Service.launch (some "u") ["u", "v"]))
    (script 0 visitAgain)).get (by decide)
  have hacc : ∀ m ∈ r.1, m.after.service.currentUser = m.before.service.currentUser := by decide
  have hsh := hall _ r.1 r.2 (start_launch (some "u") ["u", "v"]) (Machine.exec_run _)
    (fun m hm _ _ _ _ => hacc m hm) 8 (by decide)
  let listed (v : Uid) : Profile := transformUser (Service.signupRecord v)
  have hfs : r.2.screens 8 = some (.friends ⟨[listed "v", listed "w", listed "w"]⟩) := by decide
  have hlen := congrArg List.length (hsh _ hfs)
  rw [List.length_map] at hlen
  exact absurd hlen (by decide)

end App

end Mioto
