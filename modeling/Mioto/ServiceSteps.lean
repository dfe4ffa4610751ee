import Mioto.Addresses
import Mioto.ChildAdded

/-! Which steps of the services an event of the app consists of, and which screen makes
each of the calls. -/

namespace Mioto

@[simp] theorem serviceMoves_append (o o' : List Output) :
    serviceMoves (o ++ o') = serviceMoves o ++ serviceMoves o' := by
  simp [serviceMoves, List.filterMap_append]

namespace App

variable {t : String} {fresh : List ScreenId}

/-- A call that no touch made: a screen that was just loaded reads from the database, or
a Signup screen that hears of a success stores the record. -/
inductive CallsBack (fresh : List ScreenId) (s : App) : ScreenId → Call → Prop
  | loads {j : ScreenId} {c : Call} (hj : j ∈ fresh) (hc : c = .fetchData ∨ c = .fetchAllData) :
      CallsBack fresh s j c
  | saves {i : ScreenId} {su : SignupScreen} (hsc : s.screens i = some (.signup su)) :
      CallsBack fresh s i su.saveCall

theorem CallsBack.of_screens {s s' : App} {j : ScreenId} {c : Call} (h : CallsBack fresh s j c)
    (hs : s.screens = s'.screens) : CallsBack fresh s' j c := by
  cases h with
  | loads hj hc => exact .loads hj hc
  | saves hsc => exact .saves (hs ▸ hsc)

theorem closed_serviceMoves (Q : ServiceMove → Prop) :
    Sequence.Closed fun (_ : App) (r : Outcome) => ∀ sm ∈ serviceMoves r.2, Q sm where
  refl _ := by simp [serviceMoves]
  trans hr hr' := by
    rw [serviceMoves_append]
    exact List.forall_mem_append.mpr ⟨hr, hr'⟩

theorem call_of_performAll {i : ScreenId} {s : App} {cs : List Command} :
    ∀ sm ∈ serviceMoves (runAll (perform t fresh i) s cs).2, ∃ j c, sm.event = .call j t c ∧
      (j = i ∧ .call c ∈ cs ∨ j ∈ fresh ∧ (c = .fetchData ∨ c = .fetchAllData)) := by
  let runs : ScreenId → Command → Prop := fun j c =>
    j = i ∧ c ∈ cs ∨ j ∈ fresh ∧ ∃ k didLogin, c ∈ Kind.viewDidLoad didLogin k
  have hd : Deeds (fun _ r => ∀ sm ∈ serviceMoves r.2, ∃ j c, sm.event = .call j t c ∧
      runs j (.call c)) t fresh runs :=
    { closed := closed_serviceMoves _
      loads := fun j hj k didLogin c hc => .inr ⟨hj, k, didLogin, hc⟩
      deed := by
        intro s r hd
        cases hd with
        | @call j c hc =>
          unfold serve
          split
          · simp [serviceMoves]
          · simpa [serviceMoves] using hc
        | _ => simp [serviceMoves, appear] }
  intro sm hsm
  obtain ⟨j, c, he, hr⟩ := hd.performAll (i := i) s (fun c hc => .inl ⟨rfl, hc⟩) sm hsm
  refine ⟨j, c, he, ?_⟩
  rcases hr with hr | ⟨hj, k, didLogin, hc⟩
  · exact .inl hr
  · exact .inr ⟨hj, viewDidLoad_call hc⟩

theorem call_of_deliver {s : App} {m : Message} :
    ∀ sm ∈ serviceMoves (deliver t fresh s m).2, ∃ j c, sm.event = .call j t c ∧
      CallsBack fresh s j c := by
  unfold deliver
  cases hl : s.listening m with
  | none => simp [serviceMoves]
  | some x =>
    obtain ⟨i, sc⟩ := x
    cases hc : sc.receive s.service.newUser m with
    | none => simp [hc, serviceMoves]
    | some cs =>
      intro sm hsm
      simp only [hc, serviceMoves, List.filterMap_cons] at hsm
      obtain ⟨j, c, he, hr⟩ := call_of_performAll sm hsm
      refine ⟨j, c, he, ?_⟩
      rcases hr with ⟨rfl, hm⟩ | ⟨hj, hc⟩
      · obtain ⟨-, hsc⟩ := listening_eq_some.mp hl
        cases Screen.answers_of_receive hc _ hm with
        | saves hsu => exact .saves (hsc.trans (congrArg some hsu))
      · exact .loads hj hc

/-- The steps of an event whose services are asked once: that step, and the calls of
whoever hears of it. -/
theorem serviceMoves_settle_serve {s : App} {e : ServiceEvent} {r : Done}
    (hs : s.raised = none) (hr : s.service.step e = some r) :
    serviceMoves (settle t fresh (s.serve e)).2 = ⟨s.service, e, r.1, r.2⟩ ::
      (s.service.announced e).elim [] fun m =>
        serviceMoves (deliver t fresh { s with service := r.1 } m).2 := by
  cases hm : s.service.announced e with
  | none =>
    rw [settle_serve_of_none hm, serve_of_step hr]
    rfl
  | some m =>
    rw [settle_serve_of_some hs hr hm]
    rfl

theorem serviceMoves_tail (t : String) (fresh : List ScreenId) {s : App} {e : ServiceEvent}
    {r : Done} (hs : s.raised = none) (hr : s.service.step e = some r) :
    ∃ rest, serviceMoves (settle t fresh (s.serve e)).2 = ⟨s.service, e, r.1, r.2⟩ :: rest ∧
      ∀ sm ∈ rest, ∃ j c, sm.event = .call j t c ∧ CallsBack fresh s j c := by
  refine ⟨_, serviceMoves_settle_serve hs hr, ?_⟩
  cases s.service.announced e with
  | none => simp
  | some m =>
    intro sm hsm
    obtain ⟨j, c, he, hc⟩ := call_of_deliver sm hsm
    exact ⟨j, c, he, hc.of_screens rfl⟩

/-- What a service step is doing in an event that completes no request and closes no dialog. -/
inductive Asked (s : App) (e : Event) : ServiceEvent → Prop
  | button {i : ScreenId} {touch : Touch} {c : Call} (ha : e.act = .touch i touch)
      (hi : s.inHierarchy i) (hc : touch.calls c) : Asked s e (.call i e.stringTime c)
  | callsBack {j : ScreenId} {c : Call} (h : CallsBack [e.fresh, e.fresh'] s j c) :
      Asked s e (.call j e.stringTime c)
  | silent {se : ServiceEvent} (ha : e.act.silent = some se) : Asked s e se
  | tells {v : Uid} (ha : e.act = .childAdded v) (o : Nat) : Asked s e (.childAdded o v)

theorem serviceMoves_serve (s : App) (e : ServiceEvent) :
    ∀ sm ∈ serviceMoves (s.serve e).2, sm.event = e := by
  unfold serve
  split <;> simp [serviceMoves]

theorem serviceMoves_successProfile (s : App) (p : Profile) :
    serviceMoves (deliver t fresh s (.successProfileWith p)).2 = [] := by
  rw [deliver_successProfile]
  split <;> rfl

theorem serviceMoves_tell (s : App) (v : Uid) (o : Nat) :
    ∀ sm ∈ serviceMoves (tell t fresh v s o).2, sm.event = .childAdded o v := by
  cases hr : s.service.step (.childAdded o v) with
  | none => simp [tell, serve, hr, settle, andThen, runAll, serviceMoves]
  | some r =>
    cases hs : s.raised with
    | none =>
      rw [tell, serviceMoves_settle_serve hs hr]
      cases hm : s.service.announced (.childAdded o v) with
      | none => simp
      | some m =>
        obtain ⟨d, -, rfl⟩ := Option.map_eq_some_iff.mp hm
        simp [serviceMoves_successProfile]
    | some x =>
      simp [tell, serve_of_step hr, settle, andThen, Sequence.andThen, crashed, hs, serviceMoves]

theorem asked_of_performAll {s : App} {e : Event} {i : ScreenId} {cs : List Command} {s' : App}
    {fr : List ScreenId} (hf : fr ⊆ [e.fresh, e.fresh'])
    (hcs : ∀ c, .call c ∈ cs → Asked s e (.call i e.stringTime c)) :
    ∀ sm ∈ serviceMoves (runAll (perform e.stringTime fr i) s' cs).2, Asked s e sm.event := by
  intro sm hsm
  obtain ⟨j, c, he, hc⟩ := call_of_performAll sm hsm
  rw [he]
  rcases hc with ⟨rfl, hm⟩ | ⟨hj, hc⟩
  · exact hcs c hm
  · exact .callsBack (.loads (hf hj) hc)

theorem asked_of_step {s : App} {e : Event} {r : Outcome} (h : s.step e = some r)
    (hr : e.act.report e.stringTime = none) :
    ∀ sm ∈ serviceMoves r.2, Asked s e sm.event := by
  obtain ⟨hn, hs, -, hd⟩ := step_taken h
  cases hd with
  | launch ha =>
    have happear : ∀ sm ∈ serviceMoves
        ({ s.reserve e with stack := [e.fresh] }.appear .menu e.fresh).2, Asked s e sm.event := by
      simp [appear, serviceMoves]
    refine (closed_serviceMoves fun sm => Asked s e sm.event).andThen (s := s) happear ?_
    refine asked_of_performAll (by simp) fun c hc => ?_
    exact .callsBack (.loads (by simp) (viewDidLoad_call hc))
  | @touch i touch sc cs ha hi hsc hcs =>
    rcases settle_touched (s := s.reserve e) hs hcs e.stringTime [e.fresh, e.fresh'] i with
      ⟨keychain, rfl, hstep, he⟩ | ⟨-, -, he⟩
    · obtain ⟨rest, hmoves, hrest⟩ := serviceMoves_tail e.stringTime
        [e.fresh, e.fresh'] (s := s.reserve e) hn hstep
      rw [he, hmoves, List.forall_mem_cons]
      refine ⟨.button ha hi (by simp [Touch.calls]), fun sm hsm => ?_⟩
      obtain ⟨j, c, hev, hc⟩ := hrest sm hsm
      rw [hev]
      exact .callsBack (hc.of_screens rfl)
    · rw [he]
      refine asked_of_performAll (fun _ hj => hj) fun c hc => ?_
      cases Screen.runs_of_touched hcs _ hc with
      | calls hcall => exact .button ha hi hcall
  | pop | release => simp [serviceMoves]
  | @timer i sc ha hsc =>
    refine asked_of_performAll (fun _ hj => hj) fun c hc => ?_
    cases hk : sc.kind <;> simp [hk, Kind.deferred] at hc
  | silent ha =>
    intro sm hsm
    rw [serviceMoves_serve _ _ sm hsm]
    exact .silent ha
  | report ha => rw [hr] at ha; cases ha
  | @childAdded v ha =>
    refine (closed_serviceMoves fun sm => Asked s e sm.event).runAll (fun s' o _ sm hsm => ?_) _
    rw [serviceMoves_tell s' v o sm hsm]
    exact .tells ha o

theorem report_of_step {s : App} {e : Event} {r : Outcome} (h : s.step e = some r)
    {se : ServiceEvent} (hr : e.act.report e.stringTime = some se) :
    ∃ rr rest, s.service.step se = some rr ∧
      serviceMoves r.2 = ⟨s.service, se, rr.1, rr.2⟩ :: rest ∧
      ∀ sm ∈ rest, ∃ j c, sm.event = .call j e.stringTime c ∧
        CallsBack [e.fresh, e.fresh'] s j c := by
  have htaken := step_taken h
  obtain ⟨rr, hstep, rfl⟩ := htaken.report hr
  obtain ⟨rest, he, hrest⟩ := serviceMoves_tail e.stringTime [e.fresh, e.fresh']
    (s := s.reserve e) htaken.raised hstep
  refine ⟨rr, rest, hstep, he, fun sm hsm => ?_⟩
  obtain ⟨j, c, hev, hc⟩ := hrest sm hsm
  exact ⟨j, c, hev, hc.of_screens rfl⟩

end App

end Mioto
