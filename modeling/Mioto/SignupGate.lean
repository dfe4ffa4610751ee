import Mioto.TermBoxes

/-! What a tap on the sign-up button asks for. The button compares the two passwords as
objects, and equal characters do not make two strings one object. -/

namespace Mioto

def ServiceEvent.signupRequest : ServiceEvent → Option (String × String)
  | .call _ _ (.signupWithEmail email pass _) => some (email, pass)
  | _ => none

def signupRequests (o : List Output) : List (String × String) :=
  (serviceMoves o).filterMap (·.event.signupRequest)

theorem utf16Length_eq_zero {x : String} : utf16Length x = 0 ↔ x = "" := by
  rw [utf16Length, Nat.add_eq_zero_iff, List.length_eq_zero_iff, String.toList_eq_nil_iff]
  refine and_iff_left_of_imp ?_
  rintro rfl
  rfl

namespace SignupScreen

/-- The fields are as the form asks for, whichever objects they return. -/
def Filled (su : SignupScreen) : Prop :=
  su.username ≠ "" ∧ su.email ≠ "" ∧ 6 ≤ utf16Length su.password ∧ su.password = su.rePassword

instance (su : SignupScreen) : Decidable su.Filled := inferInstanceAs (Decidable (_ ∧ _ ∧ _ ∧ _))

theorem check_eq_none_iff {su : SignupScreen} {aliased : Bool} : su.check aliased = none ↔
    su.username ≠ "" ∧ su.email ≠ "" ∧ 6 ≤ utf16Length su.password ∧ aliased := by
  unfold check
  simp only [utf16Length_eq_zero]
  split_ifs <;> simp_all

/-- One object in both password fields has equal characters, so no field is left to check. -/
theorem check_iff_filled {su : SignupScreen} {aliased : Bool}
    (h : aliased → su.password = su.rePassword) :
    su.check aliased = none ↔ su.Filled ∧ aliased := by
  rw [check_eq_none_iff, Filled]
  constructor
  · rintro ⟨hname, hemail, hpass, ha⟩
    exact ⟨⟨hname, hemail, hpass, h ha⟩, ha⟩
  · rintro ⟨⟨hname, hemail, hpass, -⟩, ha⟩
    exact ⟨hname, hemail, hpass, ha⟩

end SignupScreen

namespace App

/-- The form of the screen `i` is filled in, and both its boxes are ticked. -/
def Gate (i : ScreenId) (su : SignupScreen) (older : AppHistory) : Prop :=
  su.Filled ∧ ticked i .checkbox00 older ∧ ticked i .checkbox01 older

instance (i : ScreenId) (su : SignupScreen) (older : AppHistory) : Decidable (Gate i su older) :=
  inferInstanceAs (Decidable (_ ∧ _ ∧ _))

theorem signupRequests_of_tap {m : AppMove} (hm : machine.Fires m) {i : ScreenId} {aliased : Bool}
    {su : SignupScreen} (ha : m.event.act = .touch i (.signupButton aliased))
    (hsu : m.before.screens i = some (.signup su)) :
    (aliased → su.password = su.rePassword) ∧ signupRequests m.out =
      if su.check aliased = none ∧ su.checkbox00 ∧ su.checkbox01
      then [(su.email, su.password)] else [] := by
  have htaken := fires_taken hm
  have hgo := htaken.running
  obtain ⟨sc, cs, hsc, hcs, he⟩ := htaken.touch_of_ne ha (by simp)
  obtain rfl := Option.some.inj (hsu.symm.trans hsc)
  simp only [Screen.touched] at hcs
  split_ifs at hcs with hoff
  obtain rfl := Option.some.inj hcs
  rw [not_or, not_and, not_not] at hoff
  refine ⟨hoff.2, ?_⟩
  rw [show m.out = _ from congrArg Prod.snd he]
  cases hc : su.check aliased with
  | some x =>
    simp only [SignupScreen.signupButton, hc]
    rw [runAll_cons_of_go (by rw [perform_alert]; exact hgo)]
    simp [runAll, signupRequests, serviceMoves]
  | none =>
    simp only [SignupScreen.signupButton, hc, true_and, Bool.and_eq_true]
    split_ifs
    · rw [runAll, Sequence.runAll_singleton, perform_call, serve_call hgo]
      rfl
    · rw [runAll, Sequence.runAll_singleton, perform_alert]
      rfl

/-- In every run a tap on the sign-up button asks for what it should exactly when the
fields return one password object, or the gate is closed for another reason. -/
theorem signup_gate_iff {s₀ s : App} {older : AppHistory} {m : AppMove} (hl : Launch s₀)
    (hr : machine.Run s₀ (m :: older) s) {i : ScreenId} {aliased : Bool} {su : SignupScreen}
    (ha : m.event.act = .touch i (.signupButton aliased))
    (hsu : m.before.screens i = some (.signup su)) :
    signupRequests m.out = (if Gate i su older then [(su.email, su.password)] else []) ↔
      (Gate i su older → aliased) := by
  have hbox : ∀ b, su.box b = ticked i b older :=
    box_eq_ticked hl hr.tail (signupAt_eq_some.mpr hsu)
  have h00 : su.checkbox00 = ticked i .checkbox00 older := hbox .checkbox00
  have h01 : su.checkbox01 = ticked i .checkbox01 older := hbox .checkbox01
  obtain ⟨hsame, hreq⟩ := signupRequests_of_tap (hr.fires m List.mem_cons_self) ha hsu
  have hiff : (su.check aliased = none ∧ su.checkbox00 ∧ su.checkbox01) ↔
      Gate i su older ∧ aliased := by
    rw [SignupScreen.check_iff_filled hsame, h00, h01, Gate]
    tauto
  rw [hreq]
  simp only [hiff]
  by_cases hg : Gate i su older <;> cases aliased <;> simp [hg]

def signupTap (aliased : Bool) : List Event :=
  script 0 [.launch, .touch 0 .menuSignupButton, .touch 2 (.typed .username "An"),
    .touch 2 (.typed .email "u@mail.com"), .touch 2 (.typed .password "secret"),
    .touch 2 (.typed .rePassword "secret"), .touch 2 .checkbox00, .touch 2 .checkbox01,
    .touch 2 (.signupButton aliased)]

def secretForm : SignupScreen := ⟨"An", "u@mail.com", "secret", "secret", true, true, false⟩

theorem one_object_asked_for :
    let r := (machine.exec [] (start (Service.launch none [])) (signupTap true)).get (by decide)
    machine.Run (start (Service.launch none [])) r.1 r.2 ∧ ∃ m older, r.1 = m :: older ∧
      Gate 2 secretForm older ∧ signupRequests m.out = [("u@mail.com", "secret")] := by
  intro r
  have hr : machine.Run (start (Service.launch none [])) r.1 r.2 := Machine.exec_run _
  have hsplit : r.1 = r.1[0] :: r.1.drop 1 := rfl
  have hg : Gate 2 secretForm (r.1.drop 1) := by decide
  have htap : r.1[0].event.act = .touch 2 (.signupButton true) := rfl
  have hform : r.1[0].before.screens 2 = some (.signup secretForm) := rfl
  have hiff := signup_gate_iff (start_launch none []) (hsplit ▸ hr) htap hform
  exact ⟨hr, _, _, hsplit, hg, (hiff.mpr fun _ => rfl).trans (if_pos hg)⟩

theorem equal_passwords_refused :
    let r := (machine.exec [] (start (Service.launch none [])) (signupTap false)).get (by decide)
    machine.Run (start (Service.launch none [])) r.1 r.2 ∧ ∃ m older, r.1 = m :: older ∧
      m.event.act = .touch 2 (.signupButton false) ∧
      m.before.screens 2 = some (.signup secretForm) ∧
      ¬ signupRequests m.out =
        if Gate 2 secretForm older then [(secretForm.email, secretForm.password)] else [] := by
  intro r
  have hr : machine.Run (start (Service.launch none [])) r.1 r.2 := Machine.exec_run _
  have hsplit : r.1 = r.1[0] :: r.1.drop 1 := rfl
  exact ⟨hr, _, _, hsplit, rfl, rfl, by decide⟩

end App

end Mioto
