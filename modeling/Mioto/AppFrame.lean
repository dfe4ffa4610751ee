import Mioto.CommandFrame

/-! What commands, deliveries and acts can do, told once: a property that is closed
under sequencing and true of each primitive change is true of all of them. -/

namespace Mioto

namespace App

/-- A single change that a command makes, where the command may be `allowed` only
and `own` are the screens that run commands or are made by them. -/
inductive Change (t : String) (own : ScreenId → Prop) (allowed : Command → Prop) (s : App) :
    Outcome → Prop
  | become {i : ScreenId} (hi : own i) {sc : Screen} (ha : allowed (.become sc)) :
      Change t own allowed s ({ s with screens := Function.update s.screens i (some sc) }, [])
  | listenFireBase (i : ScreenId) :
      Change t own allowed s ({ s with fireBaseListener := some i }, [.listensFireBase i])
  | listenAuth (i : ScreenId) :
      Change t own allowed s ({ s with authListener := some i }, [.listensAuth i])
  | call (i : ScreenId) {c : Call} (ha : allowed (.call c)) :
      Change t own allowed s (s.serve (.call i t c))
  | push (k : Kind) {j : ScreenId} (hj : own j) :
      Change t own allowed s ({ s with stack := j :: s.stack }.appear k j)
  | present {j : ScreenId} (hj : own j) :
      Change t own allowed s ({ s with presented := some j }.appear .forgotPassword j)
  | pop {i j : ScreenId} {stack : List ScreenId} (hs : s.stack = i :: j :: stack) :
      Change t own allowed s ({ s with stack := j :: stack }, [])
  | dismiss : Change t own allowed s ({ s with presented := none }, [])
  | dispatchAfter {i : ScreenId} (hi : own i) :
      Change t own allowed s ({ s with timers := s.timers ++ [i] }, [])
  | beginIgnoring (i : ScreenId) : Change t own allowed s (s, [.beginIgnoring i])
  | endIgnoring (i : ScreenId) : Change t own allowed s (s, [.endIgnoring i])
  | alert (text : String) : Change t own allowed s (s, [.alert text])
  | log (format text : String) : Change t own allowed s (s, [.log format text])
  | raise (x : Exn) : Change t own allowed s ({ s with raised := some x }, [])

/-- `P` is closed under sequencing and true of each change; the commands that a view
runs when it is loaded are allowed. -/
structure Primitive (P : App → Outcome → Prop) (t : String) (own : ScreenId → Prop)
    (allowed : Command → Prop) : Prop where
  closed : Sequence.Closed P
  viewDidLoad : ∀ k didLogin, ∀ c ∈ Kind.viewDidLoad didLogin k, allowed c
  change : ∀ {s r}, Change t own allowed s r → P s r

variable {P : App → Outcome → Prop} {t : String} {own : ScreenId → Prop} {allowed : Command → Prop}

/-- The same property told by the command and its screen. -/
theorem Primitive.deeds (h : Primitive P t own allowed) {fresh : List ScreenId}
    (hf : ∀ j ∈ fresh, own j) : Deeds P t fresh fun i c => own i ∧ allowed c where
  closed := h.closed
  loads j hj k didLogin c hc := ⟨hf j hj, h.viewDidLoad k didLogin c hc⟩
  deed := by
    intro s r hd
    cases hd with
    | become hc => exact h.change (.become hc.1 hc.2)
    | listenFireBase => exact h.change (.listenFireBase _)
    | listenAuth => exact h.change (.listenAuth _)
    | call hc => exact h.change (.call _ hc.2)
    | push _ hj => exact h.change (.push _ (hf _ hj))
    | present _ hj => exact h.change (.present (hf _ hj))
    | pop _ hs => exact h.change (.pop hs)
    | dismiss => exact h.change .dismiss
    | dispatchAfter hc => exact h.change (.dispatchAfter hc.1)
    | beginIgnoring => exact h.change (.beginIgnoring _)
    | endIgnoring => exact h.change (.endIgnoring _)
    | alert => exact h.change (.alert _)
    | log => exact h.change (.log _ _)
    | raise => exact h.change (.raise _)

theorem Primitive.perform (h : Primitive P t own allowed) {fresh : List ScreenId}
    (hf : ∀ j ∈ fresh, own j) {i : ScreenId} (hi : own i) (s : App) {c : Command}
    (ha : allowed c) : P s (App.perform t fresh i s c) :=
  (h.deeds hf).perform (fun _ hj => hj) s ⟨hi, ha⟩

theorem Primitive.performAll (h : Primitive P t own allowed) {fresh : List ScreenId}
    (hf : ∀ j ∈ fresh, own j) {i : ScreenId} (hi : own i) (s : App) {cs : List Command}
    (ha : ∀ c ∈ cs, allowed c) : P s (runAll (App.perform t fresh i) s cs) :=
  h.closed.runAll (fun s c hc => h.perform hf hi s (ha c hc)) s

theorem Primitive.performAny (h : Primitive P t (fun _ => True) allowed) (fresh : List ScreenId)
    (i : ScreenId) (s : App) {cs : List Command} (ha : ∀ c ∈ cs, allowed c) :
    P s (runAll (App.perform t fresh i) s cs) :=
  h.performAll (fun _ _ => trivial) trivial s ha

inductive Turn (s : App) : Outcome → Prop
  | serve (e : ServiceEvent) : Turn s (s.serve e)
  | delivered (i : ScreenId) (m : Message) : Turn s (s, [.delivered i m])
  | unrecognized (i : ScreenId) (m : Message) :
      Turn s ({ s with raised := some .unrecognizedSelector },
        [.delivered i m, .unrecognized i m])
  | launch (j : ScreenId) (hs : s.stack = []) : Turn s ({ s with stack := [j] }.appear .menu j)
  | release (i : ScreenId) : Turn s ({ s with screens := Function.update s.screens i none }, [])
  | timer (i : ScreenId) : Turn s ({ s with timers := s.timers.erase i }, [])

structure Total (P : App → Outcome → Prop) (t : String) : Prop extends
    Primitive P t (fun _ => True) (fun _ => True) where
  turn : ∀ {s r}, Turn s r → P s r

theorem Total.performAll (h : Total P t) (fresh : List ScreenId) (i : ScreenId) (s : App)
    (cs : List Command) : P s (runAll (App.perform t fresh i) s cs) :=
  h.toPrimitive.performAny fresh i s fun _ _ => trivial

theorem Total.deliver (h : Total P t) (fresh : List ScreenId) (s : App) (m : Message) :
    P s (deliver t fresh s m) := by
  unfold App.deliver
  split
  · exact h.closed.refl s
  · next i sc _ =>
    split
    · exact h.turn (.unrecognized i m)
    · exact h.closed.trans (h.turn (.delivered i m)) (h.performAll fresh i s _)

theorem Total.settle (h : Total P t) (fresh : List ScreenId) {s : App} {r : Outcome}
    (hr : P s r) : P s (settle t fresh r) :=
  h.closed.andThen (f := fun s => runAll (App.deliver t fresh) s (r.2.flatMap Output.messages)) hr
    (h.closed.runAll (fun s m _ => h.deliver fresh s m) _)

/-! ### A service step and its message -/

@[simp] theorem perform_call (t : String) (fresh : List ScreenId) (i : ScreenId) (s : App)
    (c : Call) : perform t fresh i s (.call c) = s.serve (.call i t c) := by
  cases fresh <;> rfl

theorem serve_of_step {s : App} {e : ServiceEvent} {r : Done} (h : s.service.step e = some r) :
    s.serve e = ({ s with service := r.1 }, [.service ⟨s.service, e, r.1, r.2⟩]) := by
  simp only [serve, h]

theorem serve_call {s : App} (h : s.crashed = false) (i : ScreenId) (c : Call) :
    s.serve (.call i t c) = ({ s with service := (s.service.call i t c).1 },
      [.service ⟨s.service, .call i t c, (s.service.call i t c).1, (s.service.call i t c).2⟩]) := by
  have hn : s.service.raised = none := by
    simp only [crashed, Bool.or_eq_false_iff] at h
    simpa using h.2
  exact serve_of_step (by simp [Service.step, hn])

/-- An Edit screen that is loaded becomes the listener and fetches. -/
theorem load_edit {s : App} (h : s.crashed = false) (fresh : List ScreenId) (j : ScreenId) :
    (andThen (s.appear .edit j) fun s' => runAll (App.perform t fresh j) s'
        EditProfileScreen.viewDidLoad) =
      ({ s with
        screens := Function.update s.screens j (some (.edit .loaded))
        fireBaseListener := some j
        service := (s.service.fetchData j).1 },
      [.loaded j .edit, .listensFireBase j, .service ⟨s.service, .call j t .fetchData,
        (s.service.fetchData j).1, (s.service.fetchData j).2⟩]) := by
  rw [andThen, Sequence.andThen_of_go crashed h, EditProfileScreen.viewDidLoad,
    runAll_cons_of_go (by rw [perform_listenFireBase]; exact h)]
  simp only [perform_listenFireBase, runAll, Sequence.runAll_singleton, perform_call]
  rw [serve_call (by exact h)]
  rfl

theorem messages_of_step {s : Service} {e : ServiceEvent} {r : Done} (h : s.step e = some r) :
    [Output.service ⟨s, e, r.1, r.2⟩].flatMap Output.messages = (s.announced e).toList := by
  simpa [Output.messages] using (Service.step_announced h).1

theorem settle_of_silent {r : Outcome} (h : r.2.flatMap Output.messages = [])
    (fresh : List ScreenId) :
    settle t fresh r = r := by
  simp only [settle, h, runAll, andThen, Sequence.runAll_nil, Sequence.andThen_pure]

theorem settle_serve_of_none {s : App} {e : ServiceEvent} (h : s.service.announced e = none)
    (fresh : List ScreenId) : settle t fresh (s.serve e) = s.serve e := by
  refine settle_of_silent ?_ fresh
  cases hr : s.service.step e with
  | none => simp [serve, hr]
  | some r => rw [serve_of_step hr, messages_of_step hr, h]; rfl

theorem settle_serve_of_some {s : App} {e : ServiceEvent} {r : Done} {m : Message}
    (hs : s.raised = none) (hr : s.service.step e = some r) (hm : s.service.announced e = some m)
    (fresh : List ScreenId) :
    settle t fresh (s.serve e) =
      ((deliver t fresh { s with service := r.1 } m).1,
        .service ⟨s.service, e, r.1, r.2⟩ :: (deliver t fresh { s with service := r.1 } m).2) := by
  have hn := (Service.step_announced hr).2 (by simp [hm])
  rw [serve_of_step hr, settle, messages_of_step hr, hm]
  simp [andThen, Sequence.andThen, runAll, crashed, hs, hn]

theorem listening_eq_some {s : App} {m : Message} {i : ScreenId} {sc : Screen} :
    s.listening m = some (i, sc) ↔ s.listener m = some i ∧ s.screens i = some sc := by
  simp only [listening, Option.bind_eq_some_iff, Option.map_eq_some_iff, Prod.mk.injEq]
  constructor
  · rintro ⟨j, hj, sc', hsc, rfl, rfl⟩
    exact ⟨hj, hsc⟩
  · rintro ⟨hj, hsc⟩
    exact ⟨i, hj, sc, hsc, rfl, rfl⟩

/-! ### The services inside the app -/

theorem closed_service : Sequence.Closed fun (s : App) (r : Outcome) =>
    Service.machine.Run s.service (serviceMoves r.2).reverse r.1.service where
  refl _ := .nil
  trans hr hr' := by
    simp only [serviceMoves, List.filterMap_append, List.reverse_append]
    exact hr.append hr'

theorem serve_run (s : App) (e : ServiceEvent) :
    Service.machine.Run s.service (serviceMoves (s.serve e).2).reverse (s.serve e).1.service := by
  unfold App.serve
  split
  · exact .nil
  · next r he => exact .cons (m := ⟨s.service, e, r.1, r.2⟩) .nil he

theorem total_service (t : String) : Total (fun s r =>
    Service.machine.Run s.service (serviceMoves r.2).reverse r.1.service) t where
  closed := closed_service
  viewDidLoad _ _ _ _ := trivial
  change hc := by
    cases hc with
    | call => exact serve_run _ _
    | _ => exact .nil
  turn ht := by
    cases ht with
    | serve => exact serve_run _ _
    | _ => exact .nil

end App

def Act.silent : Act → Option ServiceEvent
  | .answer k r => some (.answer k r)
  | .remoteRecord uid d => some (.remoteRecord uid d)
  | .remoteField uid k v => some (.remoteField uid k v)
  | _ => none

def Act.report (t : String) : Act → Option ServiceEvent
  | .complete k => some (.complete k t)
  | .dialog k result => some (.dialog k result)
  | _ => none

theorem Act.silent_eq_some {a : Act} {se : ServiceEvent} (h : a.silent = some se) :
    (∃ k r, a = .answer k r ∧ se = .answer k r) ∨
      (∃ uid d, a = .remoteRecord uid d ∧ se = .remoteRecord uid d) ∨
      ∃ uid k v, a = .remoteField uid k v ∧ se = .remoteField uid k v := by
  cases a <;> simp only [Act.silent, reduceCtorEq, Option.some.injEq] at h
  case answer k r => exact .inl ⟨k, r, rfl, h.symm⟩
  case remoteRecord uid d => exact .inr (.inl ⟨uid, d, rfl, h.symm⟩)
  case remoteField uid k v => exact .inr (.inr ⟨uid, k, v, rfl, h.symm⟩)

theorem Act.report_eq_some {a : Act} {t : String} {se : ServiceEvent} (h : a.report t = some se) :
    (∃ k, a = .complete k ∧ se = .complete k t) ∨
      ∃ k result, a = .dialog k result ∧ se = .dialog k result := by
  cases a <;> simp only [Act.report, reduceCtorEq, Option.some.injEq] at h
  case complete k => exact .inl ⟨k, rfl, h.symm⟩
  case dialog k result => exact .inr ⟨k, result, rfl, h.symm⟩

namespace App

/-- What an enabled event amounts to, one case for each kind of act. -/
inductive Does (s : App) (e : Event) : Outcome → Prop
  | launch (ha : e.act = .launch) (hs : s.stack = []) :
      Does s e (andThen ({ s.reserve e with stack := [e.fresh] }.appear .menu e.fresh) fun s' =>
        runAll (perform e.stringTime [e.fresh'] e.fresh) s'
          (Kind.viewDidLoad s.service.didLogin .menu))
  | touch {i : ScreenId} {touch : Touch} {sc : Screen} {cs : List Command}
      (ha : e.act = .touch i touch) (hi : s.inHierarchy i) (hsc : s.screens i = some sc)
      (hcs : sc.touched touch = some cs) :
      Does s e (settle e.stringTime [e.fresh, e.fresh']
        (runAll (perform e.stringTime [e.fresh, e.fresh'] i) (s.reserve e) cs))
  | pop {i j : ScreenId} {stack : List ScreenId} (ha : e.act = .pop)
      (hs : s.stack = i :: j :: stack) : Does s e ({ s.reserve e with stack := j :: stack }, [])
  | release {i : ScreenId} (ha : e.act = .release i) (hi : ¬ s.inHierarchy i) :
      Does s e ({ s.reserve e with screens := Function.update s.screens i none }, [])
  | timer {i : ScreenId} {sc : Screen} (ha : e.act = .timer i) (hsc : s.screens i = some sc) :
      Does s e (runAll (perform e.stringTime [e.fresh, e.fresh'] i)
        { s.reserve e with timers := s.timers.erase i } sc.kind.deferred)
  | silent {se : ServiceEvent} {r : Done} (ha : e.act.silent = some se)
      (hr : s.service.step se = some r) : Does s e ((s.reserve e).serve se)
  | report {se : ServiceEvent} {r : Done} (ha : e.act.report e.stringTime = some se)
      (hr : s.service.step se = some r) :
      Does s e (settle e.stringTime [e.fresh, e.fresh'] ((s.reserve e).serve se))
  | childAdded {v : Uid} (ha : e.act = .childAdded v) :
      Does s e ((s.reserve e).childAdded e.stringTime [e.fresh, e.fresh'] v)

structure Taken (s : App) (e : Event) (r : Outcome) : Prop where
  raised : s.raised = none
  serviceRaised : s.service.raised = none
  supplies : s.supplies e
  does : Does s e r

theorem step_taken {s : App} {e : Event} {r : Outcome} (h : s.step e = some r) : Taken s e r := by
  unfold step at h
  split_ifs at h with hc
  rw [not_or, not_not] at hc
  obtain ⟨hn, hs⟩ : s.raised = none ∧ s.service.raised = none := by simpa [crashed] using hc.1
  refine ⟨hn, hs, hc.2, ?_⟩
  cases hact : e.act <;> simp only [hact, act] at h
  case launch =>
    split at h
    · next hst hf =>
      obtain ⟨rfl, rfl⟩ := List.cons.inj hf
      obtain rfl := Option.some.inj h
      exact .launch hact hst
    · cases h
  case touch i touch =>
    split_ifs at h with hi
    obtain ⟨cs, hcs, rfl⟩ := Option.map_eq_some_iff.mp h
    obtain ⟨sc, hsc, hcs⟩ := Option.bind_eq_some_iff.mp hcs
    exact .touch hact hi hsc hcs
  case pop =>
    split at h
    · next hst =>
      obtain rfl := Option.some.inj h
      exact .pop hact hst
    · cases h
  case release i =>
    split_ifs at h with hi
    obtain rfl := Option.some.inj h
    exact .release hact hi.2.1
  case timer i =>
    split_ifs at h
    obtain ⟨sc, hsc, rfl⟩ := Option.map_eq_some_iff.mp h
    exact .timer hact hsc
  case answer k q =>
    split_ifs at h with hr
    obtain rfl := Option.some.inj h
    exact .silent (by rw [hact]; rfl) (Option.some_get hr).symm
  case complete k =>
    split_ifs at h with hr
    obtain rfl := Option.some.inj h
    exact .report (by rw [hact]; rfl) (Option.some_get hr).symm
  case dialog k q =>
    split_ifs at h with hr
    obtain rfl := Option.some.inj h
    exact .report (by rw [hact]; rfl) (Option.some_get hr).symm
  case childAdded v =>
    obtain rfl := Option.some.inj h
    exact .childAdded hact
  case remoteRecord u d =>
    obtain rfl := Option.some.inj h
    exact .silent (by rw [hact]; rfl) (by simp only [Service.step, hs]; rfl)
  case remoteField u k v =>
    obtain rfl := Option.some.inj h
    exact .silent (by rw [hact]; rfl) (by simp only [Service.step, hs]; rfl)

theorem fires_taken {m : AppMove} (hm : machine.Fires m) :
    Taken m.before m.event (m.after, m.out) := step_taken hm

theorem Taken.running {s : App} {e : Event} {r : Outcome} (h : Taken s e r) :
    (s.reserve e).crashed = false := by
  simp [crashed, reserve, h.raised, h.serviceRaised]

theorem Taken.touch {s : App} {e : Event} {r : Outcome} (h : Taken s e r) {i : ScreenId}
    {touch : Touch} (ha : e.act = .touch i touch) : ∃ sc cs, s.inHierarchy i ∧
      s.screens i = some sc ∧ sc.touched touch = some cs ∧
      r = settle e.stringTime [e.fresh, e.fresh']
        (runAll (App.perform e.stringTime [e.fresh, e.fresh'] i) (s.reserve e) cs) := by
  cases h.does with
  | touch ha' hi hsc hcs =>
    obtain ⟨rfl, rfl⟩ := Act.touch.inj (ha.symm.trans ha')
    exact ⟨_, _, hi, hsc, hcs, rfl⟩
  | launch ha' | pop ha' | release ha' | timer ha' | silent ha' | report ha' | childAdded ha' =>
    rw [ha] at ha'
    cases ha'

theorem Taken.childAdded {s : App} {e : Event} {r : Outcome} (h : Taken s e r) {v : Uid}
    (ha : e.act = .childAdded v) :
    r = (s.reserve e).childAdded e.stringTime [e.fresh, e.fresh'] v := by
  cases h.does with
  | childAdded ha' =>
    obtain rfl := Act.childAdded.inj (ha.symm.trans ha')
    rfl
  | touch ha' | launch ha' | pop ha' | release ha' | timer ha' | silent ha' | report ha' =>
    rw [ha] at ha'
    cases ha'

theorem Taken.silent {s : App} {e : Event} {r : Outcome} (h : Taken s e r) {se : ServiceEvent}
    (ha : e.act.silent = some se) :
    ∃ rr, s.service.step se = some rr ∧ r = (s.reserve e).serve se := by
  cases h.does with
  | silent ha' hr =>
    obtain rfl := Option.some.inj (ha.symm.trans ha')
    exact ⟨_, hr, rfl⟩
  | report ha' =>
    rcases Act.report_eq_some ha' with ⟨k, ha', -⟩ | ⟨k, q, ha', -⟩ <;> rw [ha'] at ha <;> cases ha
  | launch ha' | touch ha' | pop ha' | release ha' | timer ha' | childAdded ha' =>
    rw [ha'] at ha
    cases ha

theorem Taken.report {s : App} {e : Event} {r : Outcome} (h : Taken s e r) {se : ServiceEvent}
    (ha : e.act.report e.stringTime = some se) : ∃ rr, s.service.step se = some rr ∧
      r = settle e.stringTime [e.fresh, e.fresh'] ((s.reserve e).serve se) := by
  cases h.does with
  | report ha' hr =>
    obtain rfl := Option.some.inj (ha.symm.trans ha')
    exact ⟨_, hr, rfl⟩
  | silent ha' =>
    rcases Act.silent_eq_some ha' with ⟨k, q, ha', -⟩ | ⟨u, d, ha', -⟩ | ⟨u, k, v, ha', -⟩ <;>
      rw [ha'] at ha <;> cases ha
  | launch ha' | touch ha' | pop ha' | release ha' | timer ha' | childAdded ha' =>
    rw [ha'] at ha
    cases ha

theorem Total.does (h : Total P t) {s : App} {e : Event} (ht : e.stringTime = t) {r : Outcome}
    (hd : Does s e r) : P (s.reserve e) r := by
  subst ht
  cases hd with
  | launch ha hs => exact h.closed.andThen (h.turn (.launch _ hs)) (h.performAll _ _ _ _)
  | touch => exact h.settle _ (h.performAll _ _ _ _)
  | pop ha hs => exact h.change (s := s.reserve e) (.pop hs)
  | release => exact h.turn (.release _)
  | timer => exact h.closed.trans (h.turn (.timer _)) (h.performAll _ _ _ _)
  | silent => exact h.turn (.serve _)
  | report => exact h.settle _ (h.turn (.serve _))
  | childAdded => exact h.closed.runAll (fun s _ _ => h.settle _ (h.turn (.serve _))) _

end App

def serviceHistory (h : AppHistory) : ServiceHistory :=
  h.flatMap fun m => (serviceMoves m.out).reverse

/-- The services inside a run of the app make a run of their own, so what holds of
every run of the services holds inside the app. -/
theorem serviceHistory_run {s₀ s : App} {h : AppHistory} (hr : App.machine.Run s₀ h s) :
    Service.machine.Run s₀.service (serviceHistory h) s.service :=
  hr.project (f := App.service) fun _ hm =>
    (App.total_service _).does rfl (App.fires_taken hm).does

end Mioto
