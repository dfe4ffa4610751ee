import Mioto.AppFrame
import Mioto.ScreenFrame

/-! Who receives what. Commands deliver nothing themselves; each message of a
service step goes to whoever listens when it is sent. -/

namespace Mioto

def Command.isLogout : Command → Bool
  | .call (.logout _) => true
  | _ => false

def Command.isSave : Command → Bool
  | .call (.saveDataWithEmail ..) => true
  | _ => false

def Command.listsFriends : Command → Bool
  | .become (.friends _) => true
  | _ => false

@[simp] theorem deliveries_nil : deliveries [] = [] := rfl

@[simp] theorem deliveries_append (o o' : List Output) :
    deliveries (o ++ o') = deliveries o ++ deliveries o' := by
  simp [deliveries, List.filterMap_append]

@[simp] theorem deliveries_service (m : ServiceMove) (o : List Output) :
    deliveries (.service m :: o) = deliveries o := rfl

@[simp] theorem deliveries_delivered (i : ScreenId) (m : Message) (o : List Output) :
    deliveries (.delivered i m :: o) = (i, m) :: deliveries o := rfl

namespace App

/-! ### What touches and timers call -/

theorem touched_logoutButton {sc : Screen} {keychain : Bool} {cs : List Command}
    (h : sc.touched (.logoutButton keychain) = some cs) : cs = [.call (.logout keychain)] := by
  cases Screen.touched_cases h
  rfl

theorem touched_calls {sc : Screen} {touch : Touch} {cs : List Command}
    (h : sc.touched touch = some cs) (hl : ∀ keychain, touch ≠ .logoutButton keychain) :
    ∀ c ∈ cs, c.isLogout = false ∧ c.isSave = false ∧ c.listsFriends = false := by
  intro c hc
  cases Screen.runs_of_touched h c hc with
  | @shows sc' hk hf =>
    cases sc' <;> first | exact ⟨rfl, rfl, rfl⟩ | exact absurd hk.symm hf
  | @calls c hcall =>
    cases c with
    | logout keychain =>
      cases touch with
      | logoutButton keychain' => exact absurd rfl (hl keychain')
      | _ => cases hcall
    | saveDataWithEmail => cases touch <;> cases hcall
    | _ => exact ⟨rfl, rfl, rfl⟩
  | _ => exact ⟨rfl, rfl, rfl⟩

theorem deferred_calls (k : Kind) :
    ∀ c ∈ k.deferred, c.isLogout = false ∧ c.isSave = false ∧ c.listsFriends = false := by
  cases k <;> simp [Kind.deferred, Command.isLogout, Command.isSave, Command.listsFriends]

/-! ### Commands are quiet -/

/-- `r` delivers nothing and leaves nothing to deliver. -/
def Quiet (r : Outcome) : Prop := deliveries r.2 = [] ∧ r.2.flatMap Output.messages = []

theorem announced_call {s : Service} {i : ScreenId} {t : String} {c : Call}
    (h : (Command.call c).isLogout = false) : s.announced (.call i t c) = none := by
  cases c <;> first | rfl | simp [Command.isLogout] at h

theorem quiet_serve {s : App} {e : ServiceEvent} (h : s.service.announced e = none) :
    Quiet (s.serve e) := by
  cases hr : s.service.step e with
  | none => simp [Quiet, serve, hr]
  | some r =>
    rw [serve_of_step hr]
    exact ⟨rfl, by rw [messages_of_step hr, h]; rfl⟩

theorem primitive_quiet (t : String) :
    Primitive (fun _ r => Quiet r) t (fun _ => True) (fun c => c.isLogout = false) where
  closed := {
    refl := fun _ => ⟨rfl, rfl⟩
    trans := fun hr hr' => ⟨by simp [hr.1, hr'.1], by simp [List.flatMap_append, hr.2, hr'.2]⟩ }
  viewDidLoad k didLogin := by cases k <;> cases didLogin <;> decide
  change hc := by
    cases hc with
    | call i ha => exact quiet_serve (announced_call ha)
    | _ => exact ⟨rfl, rfl⟩

theorem quiet_performAll (t : String) (fresh : List ScreenId) (i : ScreenId) (s : App)
    {cs : List Command} (h : ∀ c ∈ cs, c.isLogout = false) :
    Quiet (runAll (perform t fresh i) s cs) :=
  (primitive_quiet t).performAny fresh i s h

/-- A touch is a sign-out, which is answered at once, or it delivers nothing. -/
theorem settle_touched {s : App} (hs : s.service.raised = none) {sc : Screen} {touch : Touch}
    {cs : List Command} (h : sc.touched touch = some cs) (t : String) (fresh : List ScreenId)
    (i : ScreenId) :
    (∃ keychain, touch = .logoutButton keychain ∧
        s.service.step (.call i t (.logout keychain)) = some (s.service.logout keychain) ∧
        settle t fresh (runAll (perform t fresh i) s cs) =
          settle t fresh (s.serve (.call i t (.logout keychain)))) ∨
      (∀ keychain, touch ≠ .logoutButton keychain) ∧ Quiet (runAll (perform t fresh i) s cs) ∧
        settle t fresh (runAll (perform t fresh i) s cs) = runAll (perform t fresh i) s cs := by
  by_cases hl : ∃ keychain, touch = .logoutButton keychain
  · obtain ⟨keychain, rfl⟩ := hl
    refine .inl ⟨keychain, rfl, by simp [Service.step, hs, Service.call], ?_⟩
    rw [touched_logoutButton h, runAll, Sequence.runAll_singleton, perform_call]
  · rw [not_exists] at hl
    have hq := quiet_performAll t fresh i s fun c hc => (touched_calls h hl c hc).1
    exact .inr ⟨hl, hq, settle_of_silent hq.2 fresh⟩

/-- A touch that is not a sign-out comes down to the commands of its screen. -/
theorem Taken.touch_of_ne {s : App} {e : Event} {r : Outcome} (h : Taken s e r) {i : ScreenId}
    {touch : Touch} (ha : e.act = .touch i touch)
    (hl : ∀ keychain, touch ≠ .logoutButton keychain) : ∃ sc cs, s.screens i = some sc ∧
      sc.touched touch = some cs ∧
      r = runAll (App.perform e.stringTime [e.fresh, e.fresh'] i) (s.reserve e) cs := by
  obtain ⟨sc, cs, -, hsc, hcs, he⟩ := h.touch ha
  rcases settle_touched (s := s.reserve e) h.serviceRaised hcs e.stringTime
    [e.fresh, e.fresh'] i with ⟨keychain, hk, -⟩ | ⟨-, -, hsettle⟩
  · exact absurd hk (hl keychain)
  · exact ⟨sc, cs, hsc, hcs, he.trans hsettle⟩

theorem receive_not_logout {sc : Screen} {user : Option Profile} {m : Message} {cs : List Command}
    (h : sc.receive user m = some cs) : ∀ c ∈ cs, c.isLogout = false := by
  intro c hc
  cases Screen.answers_of_receive h c hc <;> rfl

/-! ### One message, one receiver -/

def receiver (s : App) (m : Message) : Option (ScreenId × Message) :=
  (s.listening m).map fun x => (x.1, m)

theorem deliveries_deliver (t : String) (fresh : List ScreenId) (s : App) (m : Message) :
    deliveries (deliver t fresh s m).2 = (s.receiver m).toList := by
  unfold deliver receiver
  cases s.listening m with
  | none => rfl
  | some x =>
    obtain ⟨i, sc⟩ := x
    cases hc : sc.receive s.service.newUser m with
    | none => simp only [hc]; rfl
    | some cs =>
      have hq := quiet_performAll t fresh i s (receive_not_logout hc)
      simp [hc, hq.1]

theorem deliveries_settle_serve {t : String} {fresh : List ScreenId} {s : App} {e : ServiceEvent}
    {r : Done} (hs : s.raised = none) (hr : s.service.step e = some r) :
    deliveries (settle t fresh (s.serve e)).2 =
      ((s.service.announced e).bind s.receiver).toList := by
  cases hm : s.service.announced e with
  | none => rw [settle_serve_of_none hm]; exact (quiet_serve hm).1
  | some m =>
    rw [settle_serve_of_some hs hr hm, deliveries_service, deliveries_deliver]
    rfl

theorem mem_deliveries_settle_serve {t : String} {fresh : List ScreenId} {s : App}
    {e : ServiceEvent} {x : ScreenId × Message}
    (h : x ∈ deliveries (settle t fresh (s.serve e)).2) : s.service.announced e = some x.2 := by
  cases hr : s.service.step e with
  | none => simp [serve, hr, settle, andThen, Sequence.andThen_pure, runAll] at h
  | some r =>
    cases hs : s.raised with
    | none =>
      rw [deliveries_settle_serve hs hr, Option.mem_toList] at h
      obtain ⟨m, hm, hx⟩ := Option.bind_eq_some_iff.mp h
      obtain ⟨y, -, rfl⟩ := Option.map_eq_some_iff.mp hx
      exact hm
    | some x' => simp [serve_of_step hr, settle, andThen, Sequence.andThen, crashed, hs] at h

/-! ### Whole events -/

/-- The service step behind an act that is not a child-added event and may deliver. -/
def reporting (e : Event) : Option ServiceEvent :=
  match e.act with
  | .touch i (.logoutButton keychain) => some (.call i e.stringTime (.logout keychain))
  | a => a.report e.stringTime

theorem reporting_of_report {e : Event} {se : ServiceEvent}
    (h : e.act.report e.stringTime = some se) : reporting e = some se := by
  unfold reporting
  split
  · next ha => rw [ha] at h; cases h
  · exact h

theorem reporting_of_silent {e : Event} {se : ServiceEvent} (h : e.act.silent = some se) :
    reporting e = none := by
  rcases Act.silent_eq_some h with ⟨k, r, ha, -⟩ | ⟨uid, d, ha, -⟩ | ⟨uid, k, v, ha, -⟩ <;>
    simp only [reporting, ha, Act.report]

theorem announced_of_silent {s : Service} {a : Act} {se : ServiceEvent}
    (h : a.silent = some se) : s.announced se = none := by
  rcases Act.silent_eq_some h with ⟨k, r, -, rfl⟩ | ⟨uid, d, -, rfl⟩ | ⟨uid, k, v, -, rfl⟩ <;> rfl

theorem reporting_eq_some {e : Event} {se : ServiceEvent} (h : reporting e = some se) :
    (∃ i keychain, e.act = .touch i (.logoutButton keychain) ∧
        se = .call i e.stringTime (.logout keychain)) ∨
      (∃ k, e.act = .complete k ∧ se = .complete k e.stringTime) ∨
      ∃ k result, e.act = .dialog k result ∧ se = .dialog k result := by
  unfold reporting at h
  split at h
  · next i keychain ha => exact .inl ⟨i, keychain, ha, (Option.some.inj h).symm⟩
  · exact .inr (Act.report_eq_some h)

theorem deliveries_step {s s' : App} {e : Event} {o : List Output} (h : s.step e = some (s', o))
    (hv : ∀ v, e.act ≠ .childAdded v) :
    deliveries o = ((reporting e).bind fun se =>
      (s.service.announced se).bind s.receiver).toList := by
  obtain ⟨hn, hs, -, hd⟩ := step_taken h
  generalize hr : (s', o) = r at hd
  rw [show o = r.2 from congrArg Prod.snd hr]
  cases hd with
  | launch ha =>
    have hp := primitive_quiet e.stringTime
    have happear : Quiet ({ s.reserve e with stack := [e.fresh] }.appear .menu e.fresh) :=
      ⟨rfl, rfl⟩
    have hq : Quiet (andThen ({ s.reserve e with stack := [e.fresh] }.appear .menu e.fresh)
        fun s' => runAll (perform e.stringTime [e.fresh'] e.fresh) s'
          (Kind.viewDidLoad s.service.didLogin .menu)) :=
      hp.closed.andThen (s := s) happear (quiet_performAll _ _ _ _ (hp.viewDidLoad .menu _))
    have hr : reporting e = none := by simp [reporting, ha, Act.report]
    rw [hr]
    exact hq.1
  | @touch i touch sc cs ha hi hsc hcs =>
    rcases settle_touched (s := s.reserve e) hs hcs e.stringTime [e.fresh, e.fresh'] i with
      ⟨keychain, rfl, hstep, he⟩ | ⟨hl, hq, he⟩
    · rw [he, deliveries_settle_serve (s := s.reserve e) hn hstep]
      simp only [reporting, ha]
      rfl
    · have hr : reporting e = none := by
        unfold reporting
        rw [ha]
        cases touch <;> first | rfl | exact absurd rfl (hl _)
      rw [he, hq.1, hr]
      rfl
  | pop ha => simp [reporting, ha, Act.report]
  | release ha => simp [reporting, ha, Act.report]
  | timer ha =>
    rw [(quiet_performAll _ _ _ _ fun c hc => (deferred_calls _ c hc).1).1]
    simp [reporting, ha, Act.report]
  | silent ha =>
    rw [reporting_of_silent ha, (quiet_serve (announced_of_silent ha)).1]
    rfl
  | report ha hd =>
    rw [reporting_of_report ha, deliveries_settle_serve (s := s.reserve e) hn hd]
    rfl
  | childAdded ha => exact absurd ha (hv _)

theorem mem_deliveries_childAdded {t : String} {fresh : List ScreenId} {s : App} {v : Uid}
    {x : ScreenId × Message} (h : x ∈ deliveries (s.childAdded t fresh v).2) :
    ∃ p, x.2 = .successProfileWith p := by
  have hc : Sequence.Closed fun (_ : App) (r : Outcome) =>
      ∀ x ∈ deliveries r.2, ∃ p, x.2 = .successProfileWith p := {
    refl := by simp
    trans := fun hr hr' x hx => by
      rw [deliveries_append, List.mem_append] at hx
      exact hx.elim (hr x) (hr' x) }
  refine hc.runAll (fun s o _ x hx => ?_) s x h
  obtain ⟨d, -, hd⟩ := Option.map_eq_some_iff.mp (mem_deliveries_settle_serve hx)
  exact ⟨_, hd.symm⟩

/-! ### Who listens -/

end App

def Output.authClaim : Output → Option ScreenId
  | .listensAuth i => some i
  | _ => none

/-- The latest screen in a history to make itself the listener of `AuthApi`. -/
def lastAuthClaim (h : AppHistory) : Option ScreenId :=
  (h.flatMap fun m => m.out.reverse).findSome? Output.authClaim

namespace App

theorem serve_authListener (s : App) (e : ServiceEvent) : (s.serve e).1.authListener =
    ((s.serve e).2.reverse.findSome? Output.authClaim).or s.authListener := by
  unfold serve
  split <;> rfl

theorem total_authListener (t : String) : Total (fun s r =>
    r.1.authListener = (r.2.reverse.findSome? Output.authClaim).or s.authListener) t where
  closed := {
    refl := fun _ => rfl
    trans := fun hr hr' => by
      rw [hr', hr, List.reverse_append, List.findSome?_append, Option.or_assoc] }
  viewDidLoad _ _ _ _ := trivial
  change hc := by
    cases hc with
    | call => exact serve_authListener _ _
    | _ => rfl
  turn ht := by
    cases ht with
    | serve => exact serve_authListener _ _
    | _ => rfl

theorem authListener_eq_lastAuthClaim {s₀ s : App} {h : AppHistory} (hl : Launch s₀)
    (hr : machine.Run s₀ h s) : s.authListener = lastAuthClaim h := by
  induction hr with
  | nil => exact hl.authListener
  | @cons h m _ hm ih =>
    have ht := (total_authListener m.event.stringTime).does rfl (fires_taken hm).does
    rw [show m.after.authListener = _ from ht,
      show (m.before.reserve m.event).authListener = m.before.authListener from rfl, ih]
    simp [lastAuthClaim, List.findSome?_append]

end App

end Mioto
