import Mioto.Delivery

/-! Which screen hears of a sign-up, a sign-in, a password reset or a sign-out.
`AuthApi` tells its one listener, and that is the last screen loaded among those
that listen, whoever asked. -/

namespace Mioto

def statusReceivers (o : List Output) : List ScreenId :=
  ((deliveries o).filter (·.2.isAuthStatus)).map Prod.fst

namespace App

/-- The screen whose `AuthApi` request an act completes. -/
def issuer (s : App) : Act → Option ScreenId
  | .complete k =>
    (s.service.replies[k]?).bind fun w => if w.reply.answersAuth then some w.caller else none
  | .touch i (.logoutButton _) => some i
  | _ => none

/-- A completed request is answered to its issuer, once if the issuer is still in the
hierarchy, and to nobody else; nothing else is answered. -/
structure AnswersIssuer (m : AppMove) : Prop where
  once : ∀ i, m.before.issuer m.event.act = some i → m.before.inHierarchy i →
    statusReceivers m.out = [i]
  others : ∀ i, m.before.issuer m.event.act = some i → ∀ j ∈ statusReceivers m.out, j = i
  unasked : m.before.issuer m.event.act = none → statusReceivers m.out = []

/-- The last screen to claim `AuthApi`, unless it has been released since. -/
def authClaimant (older : AppHistory) (s : App) : Option ScreenId :=
  (lastAuthClaim older).filter fun i => (s.screens i).isSome

/-- Whenever a request completes, its issuer is the last screen that claimed
`AuthApi`, or both that screen is released and the issuer has left. -/
def IssuersClaimLast (h : AppHistory) : Prop :=
  ∀ newer m older i, h = newer ++ m :: older → m.before.issuer m.event.act = some i →
    authClaimant older m.before = some i ∨
      authClaimant older m.before = none ∧ ¬ m.before.inHierarchy i

theorem announced_of_issuer {s : App} {e : Event} {i : ScreenId} (h : s.issuer e.act = some i) :
    ∃ status, (reporting e).bind s.service.announced = some (.authStatus status) := by
  unfold issuer at h
  split at h
  · next k ha =>
    obtain ⟨w, hw, hi⟩ := Option.bind_eq_some_iff.mp h
    split_ifs at hi with hq
    simp only [reporting, ha, Act.report, Option.bind_some, Service.announced, hw]
    cases hr : w.reply <;> simp [hr, Reply.answersAuth] at hq <;> exact ⟨_, rfl⟩
  · next j keychain ha => exact ⟨_, by simp only [reporting, ha, Option.bind_some]; rfl⟩
  · cases h

theorem announced_of_not_issuer {s : App} {e : Event} {m : Message} (h : s.issuer e.act = none)
    (hm : (reporting e).bind s.service.announced = some m) : m.isAuthStatus = false := by
  obtain ⟨se, hse, hm⟩ := Option.bind_eq_some_iff.mp hm
  rcases reporting_eq_some hse with ⟨i, keychain, ha, rfl⟩ | ⟨k, ha, rfl⟩ | ⟨k, q, ha, rfl⟩
  · rw [ha] at h
    cases h
  · obtain ⟨w, hw, hm⟩ := Option.bind_eq_some_iff.mp hm
    simp only [issuer, ha, hw, Option.bind_some, ite_eq_right_iff, reduceCtorEq, imp_false] at h
    rw [Reply.isAuthStatus_of_announced hm]
    simpa using h
  · rw [Service.announced_dialog hm]
    rfl

theorem statusReceivers_step {s s' : App} {e : Event} {o : List Output}
    (h : s.step e = some (s', o)) : statusReceivers o =
      if (s.issuer e.act).isSome then (s.authListener.filter fun i => (s.screens i).isSome).toList
      else [] := by
  by_cases hv : ∃ v, e.act = .childAdded v
  · obtain ⟨v, hv⟩ := hv
    have hi : s.issuer e.act = none := by rw [hv]; rfl
    rw [show o = _ from congrArg Prod.snd ((step_taken h).childAdded hv), hi]
    simp only [statusReceivers, Option.isSome_none, Bool.false_eq_true, if_false,
      List.map_eq_nil_iff, List.filter_eq_nil_iff]
    intro x hx
    obtain ⟨p, hp⟩ := mem_deliveries_childAdded hx
    simp [hp, Message.isAuthStatus]
  · rw [not_exists] at hv
    have hd := deliveries_step h hv
    rw [← Option.bind_assoc] at hd
    cases hi : s.issuer e.act with
    | none =>
      cases hm : (reporting e).bind s.service.announced with
      | none => simp [statusReceivers, hd, hm]
      | some m =>
        have hn := announced_of_not_issuer hi hm
        cases hl : s.listening m <;>
          simp [statusReceivers, hd, hm, receiver, hl, hn]
    | some i =>
      obtain ⟨status, hm⟩ := announced_of_issuer hi
      rw [hm, Option.bind_some] at hd
      simp only [statusReceivers, hd, receiver, listening, listener, Option.isSome_some, if_true]
      cases s.authListener with
      | none => rfl
      | some j => cases hj : s.screens j <;> simp [hj, Option.filter, Message.isAuthStatus]

theorem answersIssuer_iff {older : AppHistory} {m : AppMove} (hm : machine.Fires m)
    (hc : m.before.authListener = lastAuthClaim older) :
    AnswersIssuer m ↔ ∀ i, m.before.issuer m.event.act = some i →
      authClaimant older m.before = some i ∨
        authClaimant older m.before = none ∧ ¬ m.before.inHierarchy i := by
  have hr := statusReceivers_step hm
  rw [hc] at hr
  change statusReceivers m.out =
    if _ then (authClaimant older m.before).toList else [] at hr
  constructor
  · intro ha i hi
    simp only [hi, Option.isSome_some, if_true] at hr
    cases hcl : authClaimant older m.before with
    | none =>
      refine .inr ⟨rfl, fun hin => ?_⟩
      have hh := ha.once i hi hin
      simp [hr, hcl] at hh
    | some j =>
      have hj := ha.others i hi j (by simp [hr, hcl])
      exact .inl (by rw [hj])
  · intro hall
    refine ⟨?_, ?_, ?_⟩
    · intro i hi hin
      rcases hall i hi with hcl | ⟨-, hn⟩
      · simp [hr, hi, hcl]
      · exact absurd hin hn
    · intro i hi j hj
      rcases hall i hi with hcl | ⟨hcl, -⟩
      · simpa [hr, hi, hcl] using hj
      · simp [hr, hi, hcl] at hj
    · intro hi
      simp [hr, hi]

/-- From a launch, every request is answered to its issuer exactly when every issuer
is the last screen to have claimed `AuthApi`, as long as it is in the hierarchy. -/
theorem requests_answered_to_issuer_iff {s₀ s : App} {h : AppHistory} (hl : Launch s₀)
    (hr : machine.Run s₀ h s) : (∀ m ∈ h, AnswersIssuer m) ↔ IssuersClaimLast h := by
  have hiff : ∀ newer m older, h = newer ++ m :: older → (AnswersIssuer m ↔
      ∀ i, m.before.issuer m.event.act = some i → authClaimant older m.before = some i ∨
        authClaimant older m.before = none ∧ ¬ m.before.inHierarchy i) := by
    rintro newer m older rfl
    exact answersIssuer_iff (hr.fires m (by simp))
      (authListener_eq_lastAuthClaim hl (hr.before rfl))
  constructor
  · intro ha newer m older i he hi
    exact (hiff newer m older he).mp (ha m (by simp [he])) i hi
  · intro hc m hm
    obtain ⟨newer, older, he⟩ := List.append_of_mem hm
    exact (hiff newer m older he).mpr fun i hi => hc newer m older i he hi

def signInAfter (before : List Act) : List Event :=
  script 0 ([.launch, .touch 0 .menuSigninButton] ++ before ++
    [.touch 2 (.typed .email "u@mail.com"), .touch 2 (.typed .password "secret"),
      .touch 2 .signinButton, .answer 0 (.signedIn (some "u")), .complete 0])

theorem sign_in_answered :
    let r := (machine.exec [] (start (Service.launch none ["u"])) (signInAfter [])).get (by decide)
    machine.Run (start (Service.launch none ["u"])) r.1 r.2 ∧ ∀ m ∈ r.1, AnswersIssuer m := by
  intro r
  have hr : machine.Run (start (Service.launch none ["u"])) r.1 r.2 := Machine.exec_run _
  refine ⟨hr, (requests_answered_to_issuer_iff (start_launch none ["u"]) hr).mpr ?_⟩
  generalize hh : r.1 = h
  have hlast : ∀ m ∈ h.head?, m.before.issuer m.event.act = some 2 ∧
      authClaimant h.tail m.before = some 2 := by
    rw [← hh]
    decide
  have hrest : ∀ m ∈ h.tail, m.before.issuer m.event.act = none := by
    rw [← hh]
    decide
  rintro (_ | ⟨m', newer⟩) m older i rfl hi
  · obtain ⟨hi', hc⟩ := hlast m rfl
    obtain rfl : 2 = i := Option.some.inj (hi'.symm.trans hi)
    exact .inl hc
  · rw [hrest m (by simp)] at hi
    cases hi

def visitForgotPassword : List Act := [.touch 2 .forgetPassword, .touch 4 .dismiss, .release 4]

theorem sign_in_after_forgot_password_dropped : ¬ ∀ s₀ h s, Launch s₀ → machine.Run s₀ h s →
    ∀ m ∈ h, AnswersIssuer m := by
  intro hall
  let r := (machine.exec [] (start (Service.launch none ["u"]))
    (signInAfter visitForgotPassword)).get (by decide)
  have hr : machine.Run _ r.1 r.2 := Machine.exec_run _
  have ha := hall _ _ _ (start_launch none ["u"]) hr (r.1.head (by decide)) (List.head_mem _)
  exact absurd (ha.once 2 (by decide) (by decide)) (by decide)

end App

end Mioto
