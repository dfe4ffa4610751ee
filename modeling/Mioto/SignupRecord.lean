import Mioto.Delivery

/-! The record of a new account. The Signup screen stores it when a sign-up is
reported to it, from what its fields and `currentUser` hold by then. -/

namespace Mioto

def Effect.record : Effect → Option (Uid × Dict)
  | .setRecord uid d => some (uid, d)
  | _ => none

/-- The records stored by a service step, if it is a screen calling `saveDataWithEmail:`. -/
def savedBy (m : ServiceMove) : List (Uid × Dict) :=
  match m.event with
  | .call _ _ (.saveDataWithEmail ..) => m.out.filterMap Effect.record
  | _ => []

def savedRecords (o : List Output) : List (Uid × Dict) := (serviceMoves o).flatMap savedBy

@[simp] theorem savedRecords_append (o o' : List Output) :
    savedRecords (o ++ o') = savedRecords o ++ savedRecords o' := by
  simp [savedRecords, serviceMoves, List.filterMap_append, List.flatMap_append]

@[simp] theorem savedRecords_delivered (i : ScreenId) (m : Message) (o : List Output) :
    savedRecords (.delivered i m :: o) = savedRecords o := rfl

namespace App

def completing (s : App) : Act → Option Reply
  | .complete k => (s.service.replies[k]?).map Waiting.reply
  | _ => none

/-- Each account created with email `e` and user name `n` gets one record with these,
and the Signup screens store nothing else. -/
structure StoresNewAccount (m : AppMove) : Prop where
  created : ∀ e n a, m.before.completing m.event.act = some (.createdUser e n (some a)) →
    ∃ d, savedRecords m.out = [(a, d)] ∧ d .mUserEmail = some e ∧ d .mUserName = some n
  otherwise : (∀ e n a, m.before.completing m.event.act ≠ some (.createdUser e n (some a))) →
    savedRecords m.out = []

def listeningSignup (s : App) : Option SignupScreen :=
  match s.listening (.authStatus 1) with
  | some (_, .signup su) => some su
  | _ => none

/-- A sign-up that succeeds finds the form as it was submitted and its account signed
in; no other success reaches a Signup screen while somebody is signed in. -/
structure FormUnchanged (m : AppMove) : Prop where
  created : ∀ e n a, m.before.completing m.event.act = some (.createdUser e n (some a)) →
    (∃ su, m.before.listeningSignup = some su ∧ su.email = e ∧ su.username = n) ∧
      m.before.service.currentUser = some a
  otherwise : ∀ r su, m.before.completing m.event.act = some r →
    (∃ a, r = .signedIn (some a)) ∨ r = .resetSent false → m.before.listeningSignup = some su →
    m.before.service.currentUser = none

/-! ### Commands store nothing, but for one -/

theorem savedBy_serve {s : App} {i : ScreenId} {t : String} {c : Call}
    (hc : (Command.call c).isSave = false) :
    savedRecords (s.serve (.call i t c)).2 = [] := by
  unfold serve
  split
  · rfl
  · cases c <;> first | rfl | simp [Command.isSave] at hc

theorem primitive_savesNothing (t : String) :
    Primitive (fun _ r => savedRecords r.2 = []) t (fun _ => True) (fun c => c.isSave = false) where
  closed := {
    refl := fun _ => rfl
    trans := fun hr hr' => by simp [hr, hr'] }
  viewDidLoad k didLogin := by cases k <;> cases didLogin <;> decide
  change hc := by
    cases hc with
    | call i ha => exact savedBy_serve ha
    | _ => rfl

theorem savedRecords_performAll (t : String) (fresh : List ScreenId) (i : ScreenId) (s : App)
    {cs : List Command} (h : ∀ c ∈ cs, c.isSave = false) :
    savedRecords (runAll (perform t fresh i) s cs).2 = [] :=
  (primitive_savesNothing t).performAny fresh i s h

def formRecord (t : String) (su : SignupScreen) (uid : Uid) : Dict :=
  Service.savedRecord uid t (some su.email) (some su.username) (some Service.unchosen) (some " ")
    (some SignupScreen.defaultAvatar) (some Service.unchosen) (some "false") (some "true")

theorem serve_saveCall {s : App} (hs : s.service.raised = none) (i : ScreenId) (t : String)
    (su : SignupScreen) : savedRecords (s.serve (.call i t su.saveCall)).2 =
      (s.service.currentUser.map fun uid => (uid, formRecord t su uid)).toList := by
  have hr : s.service.step (.call i t su.saveCall) =
      some (s.service.call i t su.saveCall) := by simp [Service.step, hs]
  rw [serve_of_step hr]
  have hd : ∀ uid, dictionaryLiteral (formRecord t su uid) = some (formRecord t su uid) := by
    intro uid
    refine dictionaryLiteral_eq_some.mpr ⟨rfl, fun k => ?_⟩
    cases k <;> rfl
  cases hu : s.service.currentUser with
  | none => simp [savedRecords, serviceMoves, savedBy, SignupScreen.saveCall, Service.call,
      Service.saveDataWithEmail, hu, Service.raise, Effect.record]
  | some uid =>
    have hd := hd uid
    unfold formRecord at hd
    simp [savedRecords, serviceMoves, savedBy, SignupScreen.saveCall, Service.call,
      Service.saveDataWithEmail, hu, hd, Service.setRecord, Effect.record, formRecord]

theorem savedRecords_andThen {r : Outcome} {f : App → Outcome}
    (h : ∀ s, savedRecords (f s).2 = []) : savedRecords (andThen r f).2 = savedRecords r.2 := by
  unfold andThen Sequence.andThen
  split
  · rfl
  · simp [h]

theorem savedRecords_signup {t : String} {fresh : List ScreenId} {i : ScreenId} {s : App}
    (hs : s.raised = none) (hn : s.service.raised = none) (su : SignupScreen) {status : Int}
    (h : status ≠ 0) :
    savedRecords (runAll (perform t fresh i) s (su.authStatus status)).2 =
      (s.service.currentUser.map fun uid => (uid, formRecord t su uid)).toList := by
  have hb : ∀ sc, perform t fresh i s (.become sc) =
      ({ s with screens := Function.update s.screens i (some sc) }, []) := by
    intro sc
    cases fresh <;> rfl
  have hp : ∀ s, savedRecords (runAll (perform t fresh i) s [.push .profile]).2 = [] :=
    fun s => savedRecords_performAll t fresh i s (by decide)
  simp only [SignupScreen.authStatus, h, if_false, runAll, Sequence.runAll_cons, hb]
  rw [Sequence.andThen_of_go crashed (by simp [crashed, hs, hn]), List.nil_append, perform_call]
  refine (savedRecords_andThen hp).trans ?_
  let hidden := Screen.signup { su with hidden := true }
  exact serve_saveCall (s := { s with screens := Function.update s.screens i (some hidden) }) hn i
    t su

theorem savedRecords_deliver {t : String} {fresh : List ScreenId} {s : App} {m : Message}
    (hs : s.raised = none) (hn : s.service.raised = none) :
    savedRecords (deliver t fresh s m).2 =
      match m, s.listening m with
      | .authStatus status, some (_, .signup su) =>
        if status = 0 then []
        else (s.service.currentUser.map fun uid => (uid, formRecord t su uid)).toList
      | _, _ => [] := by
  unfold deliver
  cases hl : s.listening m with
  | none => cases m <;> rfl
  | some x =>
    obtain ⟨i, sc⟩ := x
    cases hc : sc.receive s.service.newUser m with
    | none =>
      cases m <;> cases sc <;> first | rfl | cases hc
    | some cs =>
      by_cases hsu : ∃ su status, sc = .signup su ∧ m = .authStatus status ∧ status ≠ 0
      · obtain ⟨su, status, rfl, rfl, h⟩ := hsu
        obtain rfl := Option.some.inj hc
        simpa [h, Screen.receive] using savedRecords_signup hs hn su h
      · have hq : savedRecords (runAll (perform t fresh i) s cs).2 = [] :=
          savedRecords_performAll t fresh i s fun c hcm => by
            cases Screen.answers_of_receive hc c hcm with
            | saves hsc hm h => exact absurd ⟨_, _, hsc, hm, h⟩ hsu
            | _ => rfl
        simp only [hc, savedRecords_delivered, hq]
        split
        · next status _ su he =>
          split
          · rfl
          · next h => exact absurd ⟨su, status, (Prod.mk.inj (Option.some.inj he)).2, rfl, h⟩ hsu
        · rfl

/-! ### Whole events -/

/-- What the Signup screen that listens stores when it hears of a message. -/
def storedBy (t : String) (currentUser : Option Uid) :
    Option Message → Option SignupScreen → List (Uid × Dict)
  | some (.authStatus status), some su =>
    if status = 0 then [] else (currentUser.map fun uid => (uid, formRecord t su uid)).toList
  | _, _ => []

theorem savedRecords_settle_serve {t : String} {fresh : List ScreenId} {s : App}
    {e : ServiceEvent} {r : Done} (hs : s.raised = none) (hr : s.service.step e = some r)
    (he : savedBy ⟨s.service, e, r.1, r.2⟩ = []) :
    savedRecords (settle t fresh (s.serve e)).2 =
      storedBy t r.1.currentUser (s.service.announced e) s.listeningSignup := by
  have hone : ∀ o, savedRecords (.service ⟨s.service, e, r.1, r.2⟩ :: o) = savedRecords o := by
    intro o
    change savedBy _ ++ savedRecords o = savedRecords o
    rw [he, List.nil_append]
  cases hm : s.service.announced e with
  | none =>
    rw [settle_serve_of_none hm, serve_of_step hr, hone]
    rfl
  | some m =>
    have hn := (Service.step_announced hr).2 (by simp [hm])
    rw [settle_serve_of_some hs hr hm, hone,
      savedRecords_deliver (s := { s with service := r.1 }) hs hn]
    have hl : ∀ m, listening { s with service := r.1 } m = s.listening m := fun _ => rfl
    simp only [hl]
    cases m with
    | authStatus status =>
      have hst : s.listening (.authStatus status) = s.listening (.authStatus 1) := rfl
      simp only [hst, listeningSignup]
      cases s.listening (.authStatus 1) with
      | none => rfl
      | some x =>
        obtain ⟨j, sc⟩ := x
        cases sc <;> rfl
    | _ => rfl

theorem savedRecords_childAdded {t : String} {fresh : List ScreenId} (s : App) (o : Nat)
    (v : Uid) : savedRecords (settle t fresh (s.serve (.childAdded o v))).2 = [] := by
  cases hr : s.service.step (.childAdded o v) with
  | none => simp [serve, hr, settle, andThen, runAll, savedRecords, serviceMoves]
  | some r =>
    cases hs : s.raised with
    | some x =>
      have hc : crashed { s with service := r.1 } = true := by simp [crashed, hs]
      rw [serve_of_step hr, settle, andThen, Sequence.andThen_of_stop crashed hc]
      rfl
    | none =>
      rw [savedRecords_settle_serve hs hr rfl]
      simp only [Service.announced]
      cases s.service.reports (.childAdded o v) <;> rfl

/-- A successful sign-out leaves nobody whose record could be stored. -/
theorem savedRecords_logout {t : String} {fresh : List ScreenId} {s : App} (hs : s.raised = none)
    (hn : s.service.raised = none) (i : ScreenId) (keychain : Bool) :
    savedRecords (settle t fresh (s.serve (.call i t (.logout keychain)))).2 = [] := by
  have hstep : s.service.step (.call i t (.logout keychain)) =
      some (s.service.logout keychain) := by
    simp [Service.step, hn, Service.call]
  rw [savedRecords_settle_serve hs hstep rfl]
  cases s.listeningSignup <;> simp only [Service.announced, Service.logout] <;> split <;>
    simp_all [Service.send, storedBy]

theorem savedRecords_report {t : String} {fresh : List ScreenId} {s : App} (hs : s.raised = none)
    {a : Act} {e : ServiceEvent} (ha : a.report t = some e) {r : Done}
    (hr : s.service.step e = some r) :
    savedRecords (settle t fresh (s.serve e)).2 = storedBy t s.service.currentUser
      ((s.completing a).bind (Reply.announced s.service)) s.listeningSignup := by
  rcases Act.report_eq_some ha with ⟨k, rfl, rfl⟩ | ⟨k, q, rfl, rfl⟩
  · have hu : r.1.currentUser = s.service.currentUser := by
      cases (Service.stepped hr).2 with
      | completed _ hc => exact hc.currentUser
    rw [savedRecords_settle_serve hs hr rfl, hu, completing, Option.bind_map]
    rfl
  · rw [savedRecords_settle_serve hs hr rfl]
    cases hm : s.service.announced (.dialog k q) with
    | none => rfl
    | some m =>
      rw [Service.announced_dialog hm]
      rfl

theorem savedRecords_step {s s' : App} {e : Event} {o : List Output}
    (h : s.step e = some (s', o)) :
    savedRecords o = storedBy e.stringTime s.service.currentUser
      ((s.completing e.act).bind (Reply.announced s.service)) s.listeningSignup := by
  have ht := step_taken h
  obtain ⟨hn, hs, -, hd⟩ := ht
  generalize hr : (s', o) = r at hd
  rw [show o = r.2 from congrArg Prod.snd hr]
  cases hd with
  | launch ha =>
    simp only [completing, ha]
    have hp := primitive_savesNothing e.stringTime
    exact hp.closed.andThen (s := s) (by rfl)
      (savedRecords_performAll _ _ _ _ (hp.viewDidLoad .menu _))
  | @touch i touch sc cs ha hi hsc hcs =>
    simp only [completing, ha]
    rcases settle_touched (s := s.reserve e) hs hcs e.stringTime [e.fresh, e.fresh'] i with
      ⟨keychain, rfl, -, he⟩ | ⟨hl, -, he⟩
    · rw [he]
      exact savedRecords_logout (s := s.reserve e) hn hs i keychain
    · rw [he]
      exact savedRecords_performAll _ _ _ _ fun c hc => (touched_calls hcs hl c hc).2.1
  | pop ha => simp only [completing, ha]; rfl
  | release ha => simp only [completing, ha]; rfl
  | timer ha =>
    simp only [completing, ha]
    exact savedRecords_performAll _ _ _ _ fun c hc => (deferred_calls _ c hc).2.1
  | @silent se r ha hr' =>
    rw [serve_of_step (s := s.reserve e) hr']
    rcases Act.silent_eq_some ha with ⟨k, r, hact, rfl⟩ | ⟨uid, d, hact, rfl⟩ |
      ⟨uid, k, v, hact, rfl⟩ <;> rw [hact] <;> rfl
  | report ha hr' => exact savedRecords_report (s := s.reserve e) hn ha hr'
  | @childAdded v ha =>
    simp only [completing, ha]
    have hc : Sequence.Closed fun (_ : App) (r : Outcome) => savedRecords r.2 = [] := {
      refl := fun _ => rfl
      trans := fun h h' => by simp [h, h'] }
    exact hc.runAll (fun s o _ => savedRecords_childAdded s o v) _

theorem announced_success {s : Service} {r : Reply} {status : Int}
    (h : r.announced s = some (.authStatus status)) (hs : status ≠ 0) :
    (∃ e n a, r = .createdUser e n (some a)) ∨ (∃ a, r = .signedIn (some a)) ∨
      r = .resetSent false := by
  have hr := Reply.isAuthStatus_of_announced h
  cases r <;> simp only [Message.isAuthStatus, Reply.answersAuth, Bool.true_eq_false] at hr
  case createdUser e n result => cases result <;> simp_all [Reply.announced]
  case signedIn result => cases result <;> simp_all [Reply.announced]
  case resetSent error => cases error <;> simp_all [Reply.announced]

theorem storesNewAccount_iff {m : AppMove} (hm : machine.Fires m) :
    StoresNewAccount m ↔ FormUnchanged m := by
  have hs := savedRecords_step hm
  constructor
  · intro hst
    constructor
    · intro e n a hc
      obtain ⟨d, hd, he, hn⟩ := hst.created e n a hc
      rw [hc, hd] at hs
      cases hl : m.before.listeningSignup with
      | none => simp [hl, storedBy, Reply.announced] at hs
      | some su =>
        cases hu : m.before.service.currentUser with
        | none => simp [hl, hu, storedBy, Reply.announced] at hs
        | some u =>
          simp only [hl, hu, storedBy, Reply.announced, Option.bind_some, Option.isNone_some,
            Bool.false_eq_true, if_false, one_ne_zero, Option.map_some, Option.toList_some,
            List.cons.injEq, Prod.mk.injEq, and_true] at hs
          obtain ⟨rfl, rfl⟩ := hs
          exact ⟨⟨su, rfl, Option.some.inj he, Option.some.inj hn⟩, rfl⟩
    · intro r su hc hr hl
      have hno : ∀ e n a, m.before.completing m.event.act ≠ some (.createdUser e n (some a)) := by
        intro e n a he
        rw [hc] at he
        rcases hr with ⟨a', rfl⟩ | rfl <;> cases he
      rw [hst.otherwise hno, hc, hl] at hs
      rcases hr with ⟨a, rfl⟩ | rfl <;>
        cases hu : m.before.service.currentUser <;> simp [storedBy, Reply.announced, hu] at hs ⊢
  · intro hf
    constructor
    · intro e n a hc
      obtain ⟨⟨su, hl, he, hn⟩, hu⟩ := hf.created e n a hc
      rw [hc, hl, hu] at hs
      exact ⟨_, hs, by rw [← he]; rfl, by rw [← hn]; rfl⟩
    · intro hno
      rw [hs]
      unfold storedBy
      split
      · next status su hst hl =>
        split
        · rfl
        · next hne =>
          obtain ⟨r, hc, ha⟩ := Option.bind_eq_some_iff.mp hst
          rcases announced_success ha hne with ⟨e, n, a, rfl⟩ | hr
          · exact absurd hc (hno e n a)
          · rw [hf.otherwise r su hc hr hl]
            rfl
      · rfl

/-- In every run each new account gets its record, and the Signup screens store
nothing else, exactly when no step finds the form or the account changed. -/
theorem stores_new_accounts_iff {s₀ s : App} {h : AppHistory} (hr : machine.Run s₀ h s) :
    (∀ m ∈ h, StoresNewAccount m) ↔ ∀ m ∈ h, FormUnchanged m :=
  hr.forall_iff fun _ hm => storesNewAccount_iff hm

def signUpWith (during : List Act) : List Event :=
  script 0 ([.launch, .touch 0 .menuSignupButton, .touch 2 (.typed .username "An"),
    .touch 2 (.typed .email "u@mail.com"), .touch 2 (.typed .password "secret"),
    .touch 2 (.typed .rePassword "secret"), .touch 2 .checkbox00, .touch 2 .checkbox01,
    .touch 2 (.signupButton true), .answer 0 (.createdUser "u@mail.com" "An" (some "u"))] ++
    during ++ [.complete 0])

theorem undisturbed_sign_up_stores_account :
    let r := (machine.exec [] (start (Service.launch none [])) (signUpWith [])).get (by decide)
    machine.Run (start (Service.launch none [])) r.1 r.2 ∧ ∀ m ∈ r.1, StoresNewAccount m := by
  intro r
  have hr : machine.Run (start (Service.launch none [])) r.1 r.2 := Machine.exec_run _
  refine ⟨hr, (stores_new_accounts_iff hr).mpr ?_⟩
  generalize hh : r.1 = h
  have hlast : ∀ m ∈ h.head?,
      m.before.completing m.event.act = some (.createdUser "u@mail.com" "An" (some "u")) ∧
        m.before.service.currentUser = some "u" ∧ m.before.listeningSignup =
          some ⟨"An", "u@mail.com", "secret", "secret", true, true, false⟩ := by
    rw [← hh]
    decide
  have hrest : ∀ m ∈ h.tail, m.before.completing m.event.act = none := by
    rw [← hh]
    decide
  intro m hm
  cases h with
  | nil => cases hm
  | cons m' older =>
    rcases List.mem_cons.mp hm with rfl | hm
    · obtain ⟨hc, hu, hl⟩ := hlast m rfl
      constructor
      · intro e n a he
        obtain ⟨rfl, rfl, ha⟩ := Reply.createdUser.inj (Option.some.inj (hc.symm.trans he))
        exact ⟨⟨_, hl, rfl, rfl⟩, hu.trans ha⟩
      · intro r su he hr
        obtain rfl := Option.some.inj (hc.symm.trans he)
        simp at hr
    · have hn := hrest m hm
      constructor <;> intros <;> simp_all

theorem name_edited_during_sign_up : ¬ ∀ s₀ h s, Launch s₀ → machine.Run s₀ h s →
    ∀ m ∈ h, StoresNewAccount m := by
  intro hall
  let r := (machine.exec [] (start (Service.launch none []))
    (signUpWith [.touch 2 (.typed .username "Anh")])).get (by decide)
  have hr : machine.Run _ r.1 r.2 := Machine.exec_run _
  have hst := hall _ _ _ (start_launch none []) hr (r.1.head (by decide)) (List.head_mem _)
  obtain ⟨d, hd, -, hn⟩ := hst.created "u@mail.com" "An" "u" (by decide)
  have hname : (savedRecords (r.1.head (by decide)).out).map (·.2 .mUserName) = [some "Anh"] := by
    decide
  rw [hd] at hname
  simp [hn] at hname

end App

end Mioto
